import TokenCatalog.Project.Disk
import TokenCatalog.Proofs.Except
import TokenCatalog.Proofs.Project.Selection

/-!
# Trees of layouts

The answers about a machine fit together where they come from a layout of its files, folders and
links, and unless a folder is closed all of it can be looked at. Main statements:

* `Layout.sound_tree`: the answers fit together;
* `Layout.open_tree`: all can be looked at.
-/

namespace TokenCatalog.Project.Layout

def WellNamed (l : Layout) : Prop :=
  ∀ path ∈ l.folders ++ l.files ++ l.links.map (·.1), ∀ name ∈ path, IsName name ∧ '\x00' ∉ name

instance (l : Layout) : Decidable l.WellNamed :=
  inferInstanceAs (Decidable (∀ path ∈ _, ∀ name ∈ path, _ ∧ _))

variable {l : Layout} {text : List Char} {folder names place next : Path} {name : List Char}

/-! ## Places -/

theorem kindAt_eq_folder : l.kindAt place = .ok .folder ↔ l.isFolder place = true := by
  rw [kindAt]
  split
  · next hfolder => exact iff_of_true rfl hfolder
  · next hfolder =>
      refine iff_of_false ?_ hfolder
      split <;> exact nofun

theorem mem_of_kindAt {kind : Kind} (h : l.kindAt place = .ok kind) :
    place ∈ l.folders ++ l.files := by
  rw [kindAt] at h
  split at h
  · next hfolder => exact List.mem_append_left _ (List.contains_iff_mem.mp hfolder)
  · split at h
    · next hfile => exact List.mem_append_right _ (List.contains_iff_mem.mp hfile)
    · cases h

theorem isFolder_of_opened {u : Unit} (h : l.opened place = .ok u) : l.isFolder place = true := by
  rw [opened] at h
  split at h
  · cases h
  · next hfolder => simpa using hfolder

/-- **One step** leads from an open folder to where the name in it leads. -/
theorem step_eq_ok_iff :
    l.step place name = .ok next ↔
      (∃ u, l.opened place = .ok u) ∧ l.target (enter place name) = .ok next ∧
        ∃ kind, l.kindAt next = .ok kind := by
  simp only [step, bind_eq_ok_iff]
  constructor
  · rintro ⟨u, hopened, next', htarget, hmap⟩
    obtain ⟨kind, hkind, rfl⟩ := exists_of_map_eq_ok hmap
    exact ⟨⟨u, hopened⟩, htarget, kind, hkind⟩
  · rintro ⟨⟨u, hopened⟩, htarget, kind, hkind⟩
    exact ⟨u, hopened, next, htarget, by rw [hkind]; rfl⟩

/-- A step to what is no link. -/
theorem kind_of_step {u : Unit} (hopened : l.opened place = .ok u) (hname : name ≠ parentName)
    (hlink : l.isLink (place ++ [name]) = false) :
    l.step place name >>= l.kindAt = l.kindAt (place ++ [name]) := by
  have hlookup : l.links.lookup (place ++ [name]) = none := by simpa [isLink] using hlink
  have htarget : l.target (enter place name) = .ok (place ++ [name]) := by
    rw [enter, if_neg hname, target, hlookup]
  rw [step, hopened, htarget]
  cases hkind : l.kindAt (place ++ [name]) <;> simp [bind, Except.bind, Except.map, hkind]

theorem orAbsent_kindAt (place : Path) :
    orAbsent (about text ((l.kindAt place).map (· == .folder))) = .ok (l.isFolder place) := by
  rw [kindAt]
  split
  · next hfolder => simp [hfolder, about, Except.map, Except.mapError, orAbsent]
  · next hfolder =>
      split <;> simp [hfolder, about, Except.map, Except.mapError, orAbsent, AccessCause.isAbsence]

theorem follow_concat :
    l.follow folder (names ++ [name]) = l.follow folder names >>= fun place =>
      l.step place name := by
  rw [follow, List.foldlM_append, ← follow]
  simp only [List.foldlM_cons, List.foldlM_nil, bind_pure]

theorem mem_names_iff :
    name ∈ l.names place ↔ name ≠ parentName ∧
      ∃ rest, place ++ name :: rest ∈ l.folders ++ l.files ++ l.links.map (·.1) := by
  rw [Layout.names, List.mem_eraseDups, List.mem_filterMap]
  constructor
  · rintro ⟨path, hpath, hname⟩
    split at hname
    · next hbelow =>
        obtain ⟨rest, rfl⟩ := List.isPrefixOf_iff_prefix.mp hbelow
        obtain ⟨hget, hne⟩ := Option.filter_eq_some_iff.mp hname
        cases rest with
        | nil => simp at hget
        | cons first rest =>
            obtain rfl : first = name := by simpa using hget
            exact ⟨by simpa using hne, rest, hpath⟩
    · cases hname
  · rintro ⟨hne, rest, hpath⟩
    refine ⟨_, hpath, ?_⟩
    rw [if_pos (List.isPrefixOf_iff_prefix.mpr ⟨_, rfl⟩)]
    simp [hne]

theorem mem_names_of_step (hstep : l.step place name = .ok next) (hname : name ≠ parentName) :
    name ∈ l.names place := by
  obtain ⟨-, htarget, kind, hkind⟩ := step_eq_ok_iff.mp hstep
  rw [enter, if_neg hname] at htarget
  refine mem_names_iff.mpr ⟨hname, [], ?_⟩
  rw [target] at htarget
  split at htarget
  · next htarget' =>
      obtain ⟨before, after, hlinks, -⟩ := List.lookup_eq_some_iff.mp htarget'
      rw [hlinks]
      simp
  · cases htarget
  · cases htarget
    exact List.mem_append_left _ (mem_of_kindAt hkind)

/-! ## Answers -/

theorem about_map {α β : Type} (answer : Except AccessCause α) (f : α → β) :
    (about text answer).map f = about text (answer.map f) := by
  cases answer <;> rfl

theorem list_tree_iff {entries : List Entry} :
    (l.tree text folder).list names = .ok entries ↔
      ∃ place, l.follow folder names = .ok place ∧ (∃ u, l.opened place = .ok u) ∧
        entries = (l.names place).map fun name =>
          l.entry (namesBelow text (names ++ [name])) place name := by
  have hlist : (l.tree text folder).list names =
      about (namesBelow text names) (l.entries text folder names) := rfl
  rw [hlist, Layout.entries]
  cases l.follow folder names with
  | error cause => simp [about, Except.mapError]
  | ok place =>
      cases hopened : l.opened place with
      | error cause => simp [about, Except.mapError, Except.map, hopened]
      | ok u => simp [about, Except.mapError, Except.map, hopened, eq_comm]

section

variable (h : l.WellNamed)

include h

theorem isName_of_mem_names (hname : name ∈ l.names place) : IsName name ∧ '\x00' ∉ name := by
  obtain ⟨-, rest, hpath⟩ := mem_names_iff.mp hname
  exact h _ hpath name (by simp)

omit h in
theorem isPossible_concat (hnames : names.isPossible = true) (hname : '\x00' ∉ name) :
    Path.isPossible (names ++ [name]) = true := by
  simp only [Path.isPossible, List.all_append, Bool.and_eq_true] at hnames ⊢
  exact ⟨hnames, by simpa using hname⟩

/-- A path that leads somewhere can be looked for. -/
theorem isPossible_of_follow (hplace : l.follow folder names = .ok place) :
    names.isPossible = true := by
  induction names using List.reverseRecOn generalizing place with
  | nil => rfl
  | append_singleton names name ih =>
      rw [follow_concat] at hplace
      obtain ⟨before, hbefore, hstep⟩ := exists_of_bind_eq_ok hplace
      refine isPossible_concat (ih hbefore) ?_
      by_cases hparent : name = parentName
      · rw [hparent]
        decide
      · exact (isName_of_mem_names h (mem_names_of_step hstep hparent)).2

theorem isAny_tree_iff {wanted : Kind → Bool} :
    (l.tree text folder).isAny wanted names = .ok true ↔
      ∃ place kind, l.follow folder names = .ok place ∧ l.kindAt place = .ok kind ∧
        wanted kind = true := by
  have hstat : (l.tree text folder).stat names =
      about (namesBelow text names) (l.follow folder names >>= l.kindAt) := rfl
  rw [Tree.isAny, hstat, about_map]
  constructor
  · intro hthere
    split at hthere
    · have hkind := eq_ok_of_mapError (Tree.orAbsent_eq_true.mp hthere)
      obtain ⟨kind, hkind, hwanted⟩ := exists_of_map_eq_ok hkind
      obtain ⟨place, hplace, hkind⟩ := exists_of_bind_eq_ok hkind
      exact ⟨place, kind, hplace, hkind, hwanted⟩
    · cases hthere
  · rintro ⟨place, kind, hplace, hkind, hwanted⟩
    rw [if_pos (isPossible_of_follow h hplace), hplace]
    have hbind : (Except.ok place >>= l.kindAt) = .ok kind := hkind
    rw [hbind, Except.map, hwanted]
    rfl

/-- What is known of a name in a folder is what is known by its path. -/
theorem isFolder_concat {u : Unit} (hplace : l.follow folder names = .ok place)
    (hopened : l.opened place = .ok u) (hname : name ∈ l.names place) :
    (l.tree text folder).isFolder (names ++ [name]) =
      orAbsent (l.entry (namesBelow text (names ++ [name])) place name).leadsToFolder := by
  have hstat : (l.tree text folder).stat (names ++ [name]) =
      about (namesBelow text (names ++ [name])) (l.step place name >>= l.kindAt) := by
    have hfollow : (l.follow folder (names ++ [name])) = l.step place name := by
      rw [follow_concat, hplace]
      rfl
    rw [← hfollow]
    rfl
  have hpossible := isPossible_concat (isPossible_of_follow h hplace)
      (isName_of_mem_names h hname).2
  rw [Tree.isFolder, Tree.isAny, if_pos hpossible, hstat, about_map]
  cases hlink : l.isLink (place ++ [name]) with
  | true => rw [entry, hlink, if_pos rfl]
  | false =>
      rw [kind_of_step hopened (mem_names_iff.mp hname).1 hlink, orAbsent_kindAt, entry, hlink,
        if_neg Bool.false_ne_true]
      rfl

/-- **The answers about a layout fit together.** -/
theorem sound_tree : (l.tree text folder).Sound where
  above {names name} hthere := by
    obtain ⟨next, kind, hnext, hkind, -⟩ := (isAny_tree_iff h).mp hthere
    rw [follow_concat] at hnext
    obtain ⟨place, hplace, hstep⟩ := exists_of_bind_eq_ok hnext
    obtain ⟨⟨u, hopened⟩, -⟩ := step_eq_ok_iff.mp hstep
    have hfolder := kindAt_eq_folder.mpr (isFolder_of_opened hopened)
    exact (isAny_tree_iff h).mpr ⟨place, .folder, hplace, hfolder, rfl⟩
  listed {names name entries} hlist hname hthere := by
    obtain ⟨place, hplace, -, rfl⟩ := list_tree_iff.mp hlist
    obtain ⟨next, kind, hnext, -⟩ := (isAny_tree_iff h).mp hthere
    rw [follow_concat, hplace] at hnext
    exact ⟨_, List.mem_map.mpr ⟨name, mem_names_of_step hnext hname, rfl⟩, rfl⟩
  named {names entries} hlist entry hentry := by
    obtain ⟨place, -, -, rfl⟩ := list_tree_iff.mp hlist
    obtain ⟨name, hname, rfl⟩ := List.mem_map.mp hentry
    exact ⟨(isName_of_mem_names h hname).1, (mem_names_iff.mp hname).1⟩
  agrees {names entries} hlist entry hentry b hb := by
    obtain ⟨place, hplace, ⟨u, hopened⟩, rfl⟩ := list_tree_iff.mp hlist
    obtain ⟨name, hname, rfl⟩ := List.mem_map.mp hentry
    rwa [← isFolder_concat h hplace hopened hname]
  real {names entries} hlist entry hentry hreal b hb := by
    obtain ⟨place, hplace, ⟨u, hopened⟩, rfl⟩ := list_tree_iff.mp hlist
    obtain ⟨name, hname, rfl⟩ := List.mem_map.mp hentry
    have hboth : l.isLink (place ++ [name]) = false ∧ l.isFolder (place ++ [name]) = true := by
      simpa [entry] using hreal
    -- an entry that is no link is its own end, and the listing has seen that it is a folder
    have hleads : (l.entry (namesBelow text (names ++ [name])) place name).leadsToFolder =
        .ok true := by
      simp [entry, hboth, about, Except.mapError]
    have hanswer : (l.tree text folder).isFolder (names ++ [name]) = _ :=
      isFolder_concat h hplace hopened hname
    rw [hleads] at hanswer
    exact Except.ok.inj (hb.symm.trans hanswer)

end

/-! ## Open layouts -/

variable {cause : AccessCause}

theorem isAbsence_of_kindAt (h : l.kindAt place = .error cause) : cause.isAbsence = true := by
  rw [kindAt] at h
  split at h
  · cases h
  · split at h
    · cases h
    · cases h
      rfl

theorem isAbsence_of_step (hclosed : l.closed = []) (h : l.step place name = .error cause) :
    cause.isAbsence = true := by
  simp only [step, bind_eq_error_iff] at h
  rcases h with hopened | ⟨u, -, htarget | ⟨next, -, hkind⟩⟩
  · rw [opened, hclosed] at hopened
    split at hopened
    · cases hopened
      rfl
    · cases hopened
  · rw [target, hclosed] at htarget
    split at htarget
    · cases htarget
    · cases htarget
      rfl
    · cases htarget
  · exact isAbsence_of_kindAt (eq_error_of_map hkind)

theorem isAbsence_of_follow (hclosed : l.closed = []) (h : l.follow folder names = .error cause) :
    cause.isAbsence = true := by
  induction names using List.reverseRecOn generalizing cause with
  | nil => cases h
  | append_singleton names name ih =>
      rw [follow_concat] at h
      rcases bind_eq_error_iff.mp h with hbefore | ⟨place, -, hstep⟩
      · exact ih hbefore
      · exact isAbsence_of_step hclosed hstep

/-- **All of a layout can be looked at if no folder is closed.** -/
theorem open_tree (h : l.WellNamed) (hclosed : l.closed = []) (literal : List Char → Prop) :
    (l.tree text folder).Open literal where
  exists? {names} _ := by
    have hstat : (l.tree text folder).stat names =
        about (namesBelow text names) (l.follow folder names >>= l.kindAt) := rfl
    rw [Tree.exists?, Tree.isAny]
    split
    · rw [hstat]
      cases hkind : l.follow folder names >>= l.kindAt with
      | ok kind => exact ⟨true, rfl⟩
      | error cause =>
          have habsence : cause.isAbsence = true := by
            rcases bind_eq_error_iff.mp hkind with hplace | ⟨place, -, hkind⟩
            · exact isAbsence_of_follow hclosed hplace
            · exact isAbsence_of_kindAt hkind
          exact ⟨false, if_pos habsence⟩
    · exact ⟨false, rfl⟩
  list {names} _ hfolder := by
    obtain ⟨place, kind, hplace, hkind, hwanted⟩ := (isAny_tree_iff h).mp hfolder
    obtain rfl : kind = .folder := by simpa using hwanted
    have hopened : l.opened place = .ok () := by
      simp [opened, kindAt_eq_folder.mp hkind, hclosed]
    refine .inl ⟨_, list_tree_iff.mpr ⟨place, hplace, ⟨(), hopened⟩, rfl⟩, ?_⟩
    rintro entry hentry
    obtain ⟨name, -, rfl⟩ := List.mem_map.mp hentry
    exact ⟨_, rfl⟩

end TokenCatalog.Project.Layout
