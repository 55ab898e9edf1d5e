import TokenCatalog.Proofs.Project.Paths

/-!
# What a pattern selects

A search asks a tree one question after the other. Where all can be looked at, what it comes to is
told by the answers alone, in whatever order the names in a folder come. Main statements:

* `Tree.Sound`, `Tree.Open`: the answers fit together, and all can be looked at where a search
  comes;
* `Tree.below_gives`: the folders below a folder;
* `Tree.select_gives`: the paths that parts select from a folder;
* `Tree.selected_iff`: of these, the paths of files are those that fit the parts, name by name.
-/

namespace TokenCatalog.Project

/-! ## Searches that end without a fault -/

namespace Search

variable {α β : Type} {p q : α → Prop} {s s' : Search α}

/-- A search that ends without a fault and comes to exactly what has a property. -/
structure Gives (s : Search α) (p : α → Prop) : Prop where
  done : s.fault? = none
  found : ∀ a, a ∈ s.found ↔ p a

theorem Gives.congr (h : s.Gives p) (hpq : ∀ a, p a ↔ q a) : s.Gives q :=
  ⟨h.done, fun a => (h.found a).trans (hpq a)⟩

theorem nothing_gives : (nothing : Search α).Gives fun _ => False :=
  ⟨rfl, fun _ => List.mem_nil_iff _⟩

theorem only_gives (a : α) : (only a).Gives (· = a) :=
  ⟨rfl, fun _ => List.mem_singleton⟩

theorem guarded_gives {b : Bool} (h : b = true → s.Gives p) :
    (if b then s else nothing).Gives fun a => b = true ∧ p a := by
  cases b with
  | true => exact (h rfl).congr fun a => (and_iff_right rfl).symm
  | false => exact nothing_gives.congr fun a => by simp

theorem Gives.andThen (h : s.Gives p) (h' : s'.Gives q) :
    (s.andThen s').Gives fun a => p a ∨ q a := by
  rw [Search.andThen, h.done]
  exact ⟨h'.done, fun a => List.mem_append.trans (or_congr (h.found a) (h'.found a))⟩

theorem each_gives {xs : List β} {f : β → Search α} {p : β → α → Prop}
    (h : ∀ x ∈ xs, (f x).Gives (p x)) : (each xs f).Gives fun a => ∃ x ∈ xs, p x a := by
  induction xs with
  | nil => exact nothing_gives.congr (by simp)
  | cons x xs ih =>
      rw [List.forall_mem_cons] at h
      exact (h.1.andThen (ih h.2)).congr (by simp)

theorem Gives.bind {s : Search β} {p : β → Prop} (h : s.Gives p) {f : β → Search α}
    {q : β → α → Prop} (hf : ∀ b, p b → (f b).Gives (q b)) :
    (s.bind f).Gives fun a => ∃ b, p b ∧ q b a := by
  have heach := each_gives fun b hb => hf b ((h.found b).mp hb)
  have hend : (Search.mk [] s.fault? : Search α).Gives fun _ => False :=
    ⟨h.done, fun _ => List.mem_nil_iff _⟩
  exact (heach.andThen hend).congr (by simp [h.found])

/-- A search that permission is lacking for comes to nothing. -/
theorem refused_gives {fault : AccessFault} (h : fault.cause.isDenial = true) :
    (refused fault : Search α).forgiving.Gives fun _ => False :=
  ⟨by simp [forgiving, refused, h], fun _ => List.mem_nil_iff _⟩

theorem Gives.forgiving (h : s.Gives p) : s.forgiving.Gives p :=
  ⟨by rw [Search.forgiving, h.done]; rfl, h.found⟩

end Search

/-! ## Answers -/

namespace Tree

variable {t : Tree} {path folder : Path} {name : List Char}

theorem orAbsent_eq_true {answer : Except AccessFault Bool} :
    orAbsent answer = .ok true ↔ answer = .ok true := by
  cases answer with
  | ok b => exact Iff.rfl
  | error fault =>
      refine iff_of_false ?_ nofun
      rw [orAbsent]
      split <;> exact nofun

theorem isAny_of_exists {b : Bool} (h : t.exists? path = .ok b) (wanted : Kind → Bool) :
    ∃ b', t.isAny wanted path = .ok b' ∧ (b' = true → b = true) := by
  rw [exists?, isAny] at h
  rw [isAny]
  split
  · next hpossible =>
      rw [if_pos hpossible] at h
      cases hstat : t.stat path with
      | ok kind =>
          rw [hstat] at h
          cases h
          exact ⟨_, rfl, fun _ => rfl⟩
      | error fault =>
          rw [hstat] at h
          exact ⟨b, h, id⟩
  · exact ⟨false, rfl, nofun⟩

theorem exists_of_isAny {wanted : Kind → Bool} (h : t.isAny wanted path = .ok true) :
    t.exists? path = .ok true := by
  rw [isAny] at h
  rw [exists?, isAny]
  split at h
  · next hpossible =>
      rw [if_pos hpossible]
      cases hstat : t.stat path with
      | ok kind => rfl
      | error fault =>
          rw [hstat] at h
          exact h
  · cases h

/-- A file is no folder. -/
theorem isFolder_of_isFile (h : t.isFile path = .ok true) : t.isFolder path = .ok false := by
  rw [isFile, isAny] at h
  rw [isFolder, isAny]
  split at h
  · next hpossible =>
      rw [if_pos hpossible]
      cases hstat : t.stat path with
      | ok kind =>
          rw [hstat] at h
          cases kind with
          | file => rfl
          | folder => cases h
          | special => cases h
      | error fault =>
          rw [hstat] at h
          cases orAbsent_eq_true.mp h
  · cases h

/-- **The answers of a tree fit together**: what there is lies in folders and is listed there, and a
name in a folder is what it is when it is asked about by its path. -/
structure Sound (t : Tree) : Prop where
  above : ∀ {path name}, t.exists? (path ++ [name]) = .ok true → t.isFolder path = .ok true
  listed : ∀ {path name entries}, t.list path = .ok entries → name ≠ parentName →
    t.exists? (path ++ [name]) = .ok true → ∃ entry ∈ entries, entry.name = name
  named : ∀ {path entries}, t.list path = .ok entries →
    ∀ entry ∈ entries, IsName entry.name ∧ entry.name ≠ parentName
  agrees : ∀ {path entries}, t.list path = .ok entries → ∀ entry ∈ entries,
    ∀ b, t.isFolder (path ++ [entry.name]) = .ok b → orAbsent entry.leadsToFolder = .ok b
  real : ∀ {path entries}, t.list path = .ok entries → ∀ entry ∈ entries,
    entry.isFolder = .ok true → ∀ b, t.isFolder (path ++ [entry.name]) = .ok b → b = true

/-- The paths that a search may come to, given the names that it looks for by themselves. -/
inductive Reached (t : Tree) (literal : List Char → Prop) : Path → Prop
  | here : Reached t literal []
  | literal {path : Path} {name : List Char} (h : Reached t literal path)
      (hfolder : t.isFolder path = .ok true) (hname : literal name) :
        Reached t literal (path ++ [name])
  | entry {path : Path} {entries : List Entry} {entry : Entry} (h : Reached t literal path)
      (hfolder : t.isFolder path = .ok true) (hlist : t.list path = .ok entries)
      (hentry : entry ∈ entries) : Reached t literal (path ++ [entry.name])

/-- **All can be looked at where a search may come.** Folders may be closed to being listed. -/
structure Open (t : Tree) (literal : List Char → Prop) : Prop where
  exists? : ∀ {path}, t.Reached literal path → ∃ b, t.exists? path = .ok b
  list : ∀ {path}, t.Reached literal path → t.isFolder path = .ok true →
    (∃ entries, t.list path = .ok entries ∧ ∀ entry ∈ entries, ∃ b,
      orAbsent entry.isFolder = .ok b) ∨
      ∃ fault, t.list path = .error fault ∧ fault.cause.isDenial = true

variable {literal : List Char → Prop}

theorem Open.isAny (hopen : t.Open literal) (hpath : t.Reached literal path)
    (wanted : Kind → Bool) :
    ∃ b, t.isAny wanted path = .ok b := by
  obtain ⟨b, hb⟩ := hopen.exists? hpath
  obtain ⟨b', hb', -⟩ := isAny_of_exists hb wanted
  exact ⟨b', hb'⟩

/-- What is above something is a folder. -/
theorem Sound.isFolder_of_append (h : t.Sound) {rest : Path} :
    t.exists? (folder ++ name :: rest) = .ok true → t.isFolder folder = .ok true := by
  induction rest using List.reverseRecOn with
  | nil => exact h.above
  | append_singleton rest last ih =>
      intro hthere
      rw [← List.cons_append, ← List.append_assoc] at hthere
      exact ih (exists_of_isAny (h.above hthere))

/-! ## Folders below a folder -/

/-- **The ways from a folder to itself and to the folders below it**, through folders that are no
links. -/
inductive Descends (t : Tree) : (folder way : Path) → Prop
  | here {folder : Path} : Descends t folder []
  | into {folder way : Path} {entries : List Entry} {entry : Entry}
      (hlist : t.list folder = .ok entries) (hentry : entry ∈ entries)
      (hfolder : entry.isFolder = .ok true) (h : Descends t (folder ++ [entry.name]) way) :
      Descends t folder (entry.name :: way)

theorem each_attach {α β : Type} (xs : List β) (f : β → Search α) :
    (Search.each xs.attach fun x => f x.1) = .each xs f := by
  exact List.foldr_attach (f := fun x rest => (f x).andThen rest)

theorem below_eq (t : Tree) (folder : Path) :
    t.below folder = (Search.only folder).andThen (.forgiving (.after (t.list folder) fun entries =>
      .each entries fun entry =>
        match entry.isFolder with
        | .ok true => t.below (folder ++ [entry.name])
        | answer => .after (orAbsent answer) fun _ => .nothing)) := by
  rw [below]
  split
  · next fault hfault =>
      rw [hfault]
      rfl
  · next entries hlist =>
      rw [hlist, Search.after, ← each_attach entries]
      refine congrArg (fun f => (Search.only folder).andThen
        (.forgiving (.each entries.attach f))) ?_
      funext entry
      obtain ⟨entry, hentry⟩ := entry
      dsimp only
      split
      · next hreal => rw [hreal]
      · next hanswer =>
          split
          · next hreal => exact absurd hreal hanswer
          · rfl

/-- A folder that is listed has below it itself, and what lies below its entries that are folders
and no links. -/
theorem exists_descends_iff {entries : List Entry} (hlist : t.list folder = .ok entries) :
    (∃ way, path = folder ++ way ∧ t.Descends folder way) ↔
      path = folder ∨ ∃ entry ∈ entries, entry.isFolder = .ok true ∧
        ∃ way, path = folder ++ [entry.name] ++ way ∧ t.Descends (folder ++ [entry.name]) way := by
  constructor
  · rintro ⟨way, rfl, hway⟩
    cases hway with
    | here => exact .inl (List.append_nil _)
    | into hlist' hentry hreal hway =>
        cases hlist.symm.trans hlist'
        exact .inr ⟨_, hentry, hreal, _, by simp, hway⟩
  · rintro (rfl | ⟨entry, hentry, hreal, way, rfl, hway⟩)
    · exact ⟨[], (List.append_nil _).symm, .here⟩
    · exact ⟨entry.name :: way, by simp, .into hlist hentry hreal hway⟩

/-- A folder that is closed to being listed has only itself below it. -/
theorem exists_descends_iff_of_refused {fault : AccessFault}
    (hlist : t.list folder = .error fault) :
    (∃ way, path = folder ++ way ∧ t.Descends folder way) ↔ path = folder := by
  constructor
  · rintro ⟨way, rfl, hway⟩
    cases hway with
    | here => exact List.append_nil _
    | into hlist' => cases hlist.symm.trans hlist'
  · rintro rfl
    exact ⟨[], (List.append_nil _).symm, .here⟩

/-- An entry that is listed as a folder is one that a search may come to. -/
theorem reached_of_real (h : t.Sound) (hopen : t.Open literal) {entries : List Entry}
    {entry : Entry} (hpath : t.Reached literal folder) (hfolder : t.isFolder folder = .ok true)
    (hlist : t.list folder = .ok entries) (hentry : entry ∈ entries)
    (hreal : entry.isFolder = .ok true) :
    t.Reached literal (folder ++ [entry.name]) ∧
      t.isFolder (folder ++ [entry.name]) = .ok true := by
  have hnext : t.Reached literal (folder ++ [entry.name]) := .entry hpath hfolder hlist hentry
  obtain ⟨b, hb⟩ := hopen.isAny hnext (· == .folder)
  have htrue := h.real hlist entry hentry hreal b hb
  subst htrue
  exact ⟨hnext, hb⟩

/-- **The folders below a folder.** -/
theorem below_gives (h : t.Sound) (hopen : t.Open literal) {folder : Path}
    (hpath : t.Reached literal folder) (hfolder : t.isFolder folder = .ok true) :
    (t.below folder).Gives fun path => ∃ way, path = folder ++ way ∧ t.Descends folder way := by
  -- folders that are no links lie in each other only to the height of the first one
  induction hheight : t.height folder using Nat.strong_induction_on generalizing folder
  next height ih =>
  subst hheight
  rw [below_eq]
  rcases hopen.list hpath hfolder with ⟨entries, hlist, hkinds⟩ | ⟨fault, hlist, hdenied⟩
  · have heach : ∀ entry ∈ entries,
        Search.Gives (match entry.isFolder with
          | .ok true => t.below (folder ++ [entry.name])
          | answer => .after (orAbsent answer) fun _ => .nothing)
          fun path => entry.isFolder = .ok true ∧
            ∃ way, path = folder ++ [entry.name] ++ way ∧
              t.Descends (folder ++ [entry.name]) way := by
      intro entry hentry
      split
      · next hreal =>
          obtain ⟨hnext, hbelow⟩ := reached_of_real h hopen hpath hfolder hlist hentry hreal
          refine (ih _ (t.height_lt hlist hentry hreal) hnext hbelow rfl).congr fun path => ?_
          exact (and_iff_right hreal).symm
      · next answer hanswer =>
          obtain ⟨b, hb⟩ := hkinds entry hentry
          rw [hb]
          refine Search.nothing_gives.congr fun path => ?_
          exact iff_of_false id fun hpath => hanswer hpath.1
    rw [hlist]
    refine ((Search.only_gives folder).andThen (Search.each_gives heach).forgiving).congr ?_
    exact fun path => (exists_descends_iff hlist).symm
  · rw [hlist]
    refine ((Search.only_gives folder).andThen (Search.refused_gives hdenied)).congr fun path => ?_
    rw [exists_descends_iff_of_refused hlist, or_false]

/-- What lies below a folder is a folder that a search may come to. -/
theorem Descends.isFolder (h : t.Sound) (hopen : t.Open literal) {folder way : Path}
    (hway : t.Descends folder way) (hpath : t.Reached literal folder)
    (hfolder : t.isFolder folder = .ok true) :
    t.Reached literal (folder ++ way) ∧ t.isFolder (folder ++ way) = .ok true := by
  induction hway with
  | here => rw [List.append_nil]; exact ⟨hpath, hfolder⟩
  | @into folder way entries entry hlist hentry hreal _ ih =>
      obtain ⟨hnext, hbelow⟩ := reached_of_real h hopen hpath hfolder hlist hentry hreal
      rw [← List.singleton_append, ← List.append_assoc]
      exact ih hnext hbelow

/-! ## Parts -/

def Selected (t : Tree) : List GlobPart → (folder path : Path) → Prop
  | [], folder, path => path = folder
  | .here :: _, folder, path => path = folder
  | .deep :: parts, folder, path =>
    ∃ way, t.Descends folder way ∧ t.Selected parts (folder ++ way) path
  | .name name :: parts, folder, path =>
    (if parts.isEmpty then t.exists? (folder ++ [name])
      else t.isFolder (folder ++ [name])) = .ok true ∧
      t.Selected parts (folder ++ [name]) path
  | .wild pieces :: parts, folder, path =>
    ∃ entries, t.list folder = .ok entries ∧ ∃ entry ∈ entries, fits pieces entry.name = true ∧
      (parts ≠ [] → t.isFolder (folder ++ [entry.name]) = .ok true) ∧
        t.Selected parts (folder ++ [entry.name]) path

/-- What parts select from any folder that a search may come to. -/
def Selects (t : Tree) (literal : List Char → Prop) (parts : List GlobPart) : Prop :=
  ∀ folder, t.Reached literal folder → (parts ≠ [] → t.isFolder folder = .ok true) →
    (t.select parts folder).Gives (t.Selected parts folder)

section

variable {parts : List GlobPart}

theorem Selects.ofDeep (hrest : t.Selects literal parts) (h : t.Sound) (hopen : t.Open literal) :
    t.Selects literal (.deep :: parts) := by
  intro folder hpath hfolder
  have htrue := hfolder (List.cons_ne_nil _ _)
  refine ((below_gives h hopen hpath htrue).bind (q := t.Selected parts) ?_).forgiving.congr ?_
  · rintro _ ⟨way, rfl, hway⟩
    obtain ⟨hreached, hlast⟩ := hway.isFolder h hopen hpath htrue
    exact hrest _ hreached fun _ => hlast
  · intro path
    constructor
    · rintro ⟨_, ⟨way, rfl, hway⟩, hselected⟩
      exact ⟨way, hway, hselected⟩
    · rintro ⟨way, hway, hselected⟩
      exact ⟨_, ⟨way, rfl, hway⟩, hselected⟩

theorem Selects.ofName (hrest : t.Selects literal parts) (hopen : t.Open literal)
    (hliteral : literal name) : t.Selects literal (.name name :: parts) := by
  intro folder hpath hfolder
  have hnext : t.Reached literal (folder ++ [name]) :=
    .literal hpath (hfolder (List.cons_ne_nil _ _)) hliteral
  -- only the last name may be that of anything; the others must lead to folders
  obtain ⟨b, hb⟩ : ∃ b, (if parts.isEmpty then t.exists? (folder ++ [name])
      else t.isFolder (folder ++ [name])) = .ok b := by
    split
    · exact hopen.exists? hnext
    · exact hopen.isAny hnext _
  have hmore : b = true → parts ≠ [] → t.isFolder (folder ++ [name]) = .ok true := by
    rintro rfl hne
    rwa [if_neg (by simpa using hne)] at hb
  rw [select, hb]
  refine (Search.guarded_gives fun htrue => hrest _ hnext (hmore htrue)).forgiving.congr ?_
  intro path
  rw [Selected, hb, Except.ok.injEq]

/-- What one entry of a folder that is listed contributes. -/
theorem Selects.ofEntry {entries : List Entry} {entry : Entry} (hrest : t.Selects literal parts)
    (h : t.Sound) (hopen : t.Open literal) (pieces : List Piece)
    (hpath : t.Reached literal folder) (hfolder : t.isFolder folder = .ok true)
    (hlist : t.list folder = .ok entries) (hentry : entry ∈ entries) :
    (Search.after (if parts.isEmpty then .ok true else orAbsent entry.leadsToFolder)
      fun goesOn => if goesOn && fits pieces entry.name then
        t.select parts (folder ++ [entry.name]) else .nothing).Gives
    fun path => fits pieces entry.name = true ∧
      (parts ≠ [] → t.isFolder (folder ++ [entry.name]) = .ok true) ∧
        t.Selected parts (folder ++ [entry.name]) path := by
  have hnext : t.Reached literal (folder ++ [entry.name]) := .entry hpath hfolder hlist hentry
  obtain ⟨b, hb⟩ := hopen.isAny hnext (· == .folder)
  have hgoesOn : (if parts.isEmpty then .ok true else orAbsent entry.leadsToFolder) =
      .ok (parts.isEmpty || b) := by
    rw [h.agrees hlist entry hentry b hb]
    cases parts.isEmpty <;> rfl
  have hmore : (parts.isEmpty || b) = true ↔
      (parts ≠ [] → t.isFolder (folder ++ [entry.name]) = .ok true) := by
    rw [show t.isFolder (folder ++ [entry.name]) = .ok b from hb]
    cases parts <;> simp
  rw [hgoesOn, Search.after]
  refine (Search.guarded_gives fun hboth => hrest _ hnext ?_).congr fun path => ?_
  · exact hmore.mp (Bool.and_eq_true_iff.mp hboth).1
  · rw [Bool.and_eq_true, hmore, and_comm (b := _ = true), and_assoc]

theorem Selects.ofWild {pieces : List Piece} (hrest : t.Selects literal parts) (h : t.Sound)
    (hopen : t.Open literal) : t.Selects literal (.wild pieces :: parts) := by
  intro folder hpath hfolder
  have htrue := hfolder (List.cons_ne_nil _ _)
  rw [select]
  rcases hopen.list hpath htrue with ⟨entries, hlist, -⟩ | ⟨fault, hlist, hdenied⟩
  · have heach := fun (entry : Entry) (hentry : entry ∈ entries) =>
      hrest.ofEntry h hopen pieces hpath htrue hlist hentry
    rw [hlist]
    refine (Search.each_gives heach).forgiving.congr fun path => ?_
    constructor
    · exact fun hselected => ⟨entries, hlist, hselected⟩
    · rintro ⟨entries', hentries, hselected⟩
      cases hlist.symm.trans hentries
      exact hselected
  -- a folder that may not be listed counts as an empty one
  · rw [hlist]
    refine (Search.refused_gives hdenied).congr fun path => iff_of_false id ?_
    rintro ⟨entries, hentries, -⟩
    cases hlist.symm.trans hentries

end

/-- **The paths that parts select from a folder.** -/
theorem select_gives (h : t.Sound) (hopen : t.Open literal) {parts : List GlobPart}
    (hliteral : ∀ name, .name name ∈ parts → literal name) {folder : Path}
    (hpath : t.Reached literal folder) (hfolder : parts ≠ [] → t.isFolder folder = .ok true) :
    (t.select parts folder).Gives (t.Selected parts folder) := by
  have hselects : t.Selects literal parts := by
    clear hfolder
    induction parts with
    | nil => exact fun _ _ _ => Search.only_gives _
    | cons part parts ih =>
        have hrest := ih fun name hname => hliteral name (List.mem_cons_of_mem _ hname)
        cases part with
        | here => exact fun _ _ _ => Search.only_gives _
        | deep => exact hrest.ofDeep h hopen
        | name name => exact hrest.ofName hopen (hliteral name List.mem_cons_self)
        | wild pieces => exact hrest.ofWild h hopen
  exact hselects folder hpath hfolder

/-! ## Files -/

/-- **Whether the path of a file, from a folder, fits parts.** A name may stand for itself or fit
wildcards in a folder that can be listed, and two stars stand for a way through folders that are no
links. -/
inductive FileFits (t : Tree) : (folder : Path) → List GlobPart → (path : Path) → Prop
  | done {folder : Path} : FileFits t folder [] []
  | deep {folder way rest : Path} {parts : List GlobPart} (hway : t.Descends folder way)
      (hrest : rest ≠ []) (h : FileFits t (folder ++ way) parts rest) :
      FileFits t folder (.deep :: parts) (way ++ rest)
  | name {folder rest : Path} {parts : List GlobPart} (name : List Char)
      (h : FileFits t (folder ++ [name]) parts rest) :
      FileFits t folder (.name name :: parts) (name :: rest)
  | wild {folder rest : Path} {parts : List GlobPart} {entries : List Entry} {pieces : List Piece}
      {name : List Char} (hlist : t.list folder = .ok entries) (hname : name ≠ parentName)
      (hfits : fits pieces name = true) (h : FileFits t (folder ++ [name]) parts rest) :
      FileFits t folder (.wild pieces :: parts) (name :: rest)

theorem FileFits.ne_nil {part : GlobPart} {parts : List GlobPart}
    (h : t.FileFits folder (part :: parts) path) : path ≠ [] := by
  cases h with
  | deep hway hrest h => exact fun hnil => hrest (List.append_eq_nil_iff.mp hnil).2
  | name name h => exact List.cons_ne_nil _ _
  | wild hlist hname hfits h => exact List.cons_ne_nil _ _

/-- What is selected lies below the folder. -/
theorem fileFits_of_selected (h : t.Sound) (hopen : t.Open literal) {parts : List GlobPart}
    (hliteral : ∀ name, .name name ∈ parts → literal name) (hpath : t.Reached literal folder)
    (hfolder : parts ≠ [] → t.isFolder folder = .ok true) (hfile : t.isFile path = .ok true)
    (hselected : t.Selected parts folder path) :
    ∃ rest, path = folder ++ rest ∧ t.FileFits folder parts rest := by
  induction parts generalizing folder with
  | nil => exact ⟨[], by simpa [Selected] using hselected, .done⟩
  | cons part parts ih =>
      have htrue := hfolder (List.cons_ne_nil _ _)
      have hrest : ∀ name, .name name ∈ parts → literal name := fun name hname =>
        hliteral name (List.mem_cons_of_mem _ hname)
      have hnone : t.isFolder path = .ok false := isFolder_of_isFile hfile
      cases part with
      | here =>
          -- a pattern that ends in a slash gives folders, and `path` is a file
          have hsame : path = folder := hselected
          rw [hsame, htrue] at hnone
          cases hnone
      | deep =>
          obtain ⟨way, hway, hselected⟩ := hselected
          obtain ⟨hreached, hlast⟩ := hway.isFolder h hopen hpath htrue
          obtain ⟨rest, rfl, hfits⟩ := ih hrest hreached (fun _ => hlast) hselected
          refine ⟨way ++ rest, List.append_assoc .., .deep hway ?_ hfits⟩
          rintro rfl
          rw [List.append_nil, hlast] at hnone
          cases hnone
      | name name =>
          obtain ⟨hthere, hselected⟩ := hselected
          have hnext := Reached.literal hpath htrue (hliteral name List.mem_cons_self)
          have hmore : parts ≠ [] → t.isFolder (folder ++ [name]) = .ok true := by
            intro hne
            rwa [if_neg (by simpa using hne)] at hthere
          obtain ⟨rest, rfl, hfits⟩ := ih hrest hnext hmore hselected
          exact ⟨name :: rest, by simp, .name name hfits⟩
      | wild pieces =>
          obtain ⟨entries, hlist, entry, hentry, hmatches, hmore, hselected⟩ := hselected
          have hnext := Reached.entry hpath htrue hlist hentry
          obtain ⟨rest, rfl, hfits⟩ := ih hrest hnext hmore hselected
          exact ⟨entry.name :: rest, by simp,
            .wild hlist (h.named hlist entry hentry).2 hmatches hfits⟩

/-- The first step to a file leads to a folder unless it is the last one. -/
theorem Sound.of_first (h : t.Sound) {rest : Path}
    (hfile : t.isFile (folder ++ name :: rest) = .ok true) :
    t.exists? (folder ++ [name]) = .ok true ∧
      (rest ≠ [] → t.isFolder (folder ++ [name]) = .ok true) := by
  have hthere := exists_of_isAny hfile
  cases rest with
  | nil => exact ⟨hthere, fun hne => absurd rfl hne⟩
  | cons next rest =>
      rw [List.append_cons] at hthere
      have hfolder := h.isFolder_of_append hthere
      exact ⟨exists_of_isAny hfolder, fun _ => hfolder⟩

/-- A file whose path fits is selected. -/
theorem FileFits.selected (h : t.Sound) {parts : List GlobPart} {rest : Path}
    (hfits : t.FileFits folder parts rest) (hfile : t.isFile (folder ++ rest) = .ok true) :
    t.Selected parts folder (folder ++ rest) := by
  induction hfits with
  | done => exact List.append_nil _
  | deep hway hrest hfits ih =>
      rw [← List.append_assoc] at hfile ⊢
      exact ⟨_, hway, ih hfile⟩
  | @name folder rest parts name hfits ih =>
      obtain ⟨hthere, hmore⟩ := h.of_first hfile
      rw [List.append_cons] at hfile ⊢
      refine ⟨?_, ih hfile⟩
      cases parts with
      | nil => exact hthere
      | cons part parts => exact hmore hfits.ne_nil
  | @wild folder rest parts entries pieces name hlist hname hmatches hfits ih =>
      obtain ⟨hthere, hmore⟩ := h.of_first hfile
      obtain ⟨entry, hentry, rfl⟩ := h.listed hlist hname hthere
      rw [List.append_cons] at hfile ⊢
      refine ⟨entries, hlist, entry, hentry, hmatches, fun hne => hmore ?_, ih hfile⟩
      obtain ⟨part, parts, rfl⟩ := List.exists_cons_of_ne_nil hne
      exact hfits.ne_nil

/-- **Of the paths that parts select, those of files are the ones that fit the parts.** -/
theorem selected_iff (h : t.Sound) (hopen : t.Open literal) {parts : List GlobPart}
    (hliteral : ∀ name, .name name ∈ parts → literal name) (hroot : t.isFolder [] = .ok true)
    (hfile : t.isFile path = .ok true) :
    t.Selected parts [] path ↔ t.FileFits [] parts path := by
  constructor
  · intro hselected
    obtain ⟨rest, rfl, hfits⟩ :=
      fileFits_of_selected h hopen hliteral .here (fun _ => hroot) hfile hselected
    exact hfits
  · exact fun hfits => hfits.selected h hfile

theorem Descends.isName (h : t.Sound) {way : Path} (hway : t.Descends folder way) :
    ∀ name ∈ way, IsName name := by
  induction hway with
  | here => exact nofun
  | into hlist hentry _ _ ih =>
      exact List.forall_mem_cons.mpr ⟨(h.named hlist _ hentry).1, ih⟩

/-- The names of a path that fits parts are those of the parts, and names in folders. -/
theorem FileFits.isName (h : t.Sound) {parts : List GlobPart} {rest : Path}
    (hnames : ∀ name, .name name ∈ parts → IsName name)
    (hfits : t.FileFits folder parts rest) (hfile : t.isFile (folder ++ rest) = .ok true) :
    ∀ name ∈ rest, IsName name := by
  induction hfits with
  | done => exact nofun
  | deep hway _ _ ih =>
      rw [← List.append_assoc] at hfile
      have hrest := ih (fun name hname => hnames name (List.mem_cons_of_mem _ hname)) hfile
      exact fun name hname => (List.mem_append.mp hname).elim (hway.isName h name) (hrest name)
  | name name _ ih =>
      rw [List.append_cons] at hfile
      have hrest := ih (fun name hname => hnames name (List.mem_cons_of_mem _ hname)) hfile
      exact List.forall_mem_cons.mpr ⟨hnames name List.mem_cons_self, hrest⟩
  | wild hlist hname _ _ ih =>
      obtain ⟨entry, hentry, rfl⟩ := h.listed hlist hname (h.of_first hfile).1
      rw [List.append_cons] at hfile
      have hrest := ih (fun name hname => hnames name (List.mem_cons_of_mem _ hname)) hfile
      exact List.forall_mem_cons.mpr ⟨(h.named hlist entry hentry).1, hrest⟩

/-- What is selected is what a search may come to. -/
theorem reached_of_selected (h : t.Sound) (hopen : t.Open literal) {parts : List GlobPart}
    (hliteral : ∀ name, .name name ∈ parts → literal name) (hpath : t.Reached literal folder)
    (hfolder : parts ≠ [] → t.isFolder folder = .ok true)
    (hselected : t.Selected parts folder path) : t.Reached literal path := by
  induction parts generalizing folder with
  | nil =>
      cases (hselected : path = folder)
      exact hpath
  | cons part parts ih =>
      have htrue := hfolder (List.cons_ne_nil _ _)
      have hrest : ∀ name, .name name ∈ parts → literal name := fun name hname =>
        hliteral name (List.mem_cons_of_mem _ hname)
      cases part with
      | here =>
          cases (hselected : path = folder)
          exact hpath
      | deep =>
          obtain ⟨way, hway, hselected⟩ := hselected
          obtain ⟨hreached, hlast⟩ := hway.isFolder h hopen hpath htrue
          exact ih hrest hreached (fun _ => hlast) hselected
      | name name =>
          obtain ⟨hthere, hselected⟩ := hselected
          refine ih hrest (.literal hpath htrue (hliteral name List.mem_cons_self)) ?_ hselected
          intro hne
          rwa [if_neg (by simpa using hne)] at hthere
      | wild pieces =>
          obtain ⟨entries, hlist, entry, hentry, -, hmore, hselected⟩ := hselected
          exact ih hrest (.entry hpath htrue hlist hentry) hmore hselected

/-! ## Names in another order -/

/-- The same names in a folder, in any order and each of them any number of times. -/
inductive SameNames : (answer answer' : Except AccessFault (List Entry)) → Prop
  | refused (fault : AccessFault) : SameNames (.error fault) (.error fault)
  | listed {entries entries' : List Entry} (h : ∀ entry, entry ∈ entries ↔ entry ∈ entries') :
      SameNames (.ok entries) (.ok entries')

theorem SameNames.symm {answer answer' : Except AccessFault (List Entry)}
    (h : SameNames answer answer') : SameNames answer' answer := by
  cases h with
  | refused fault => exact .refused fault
  | listed h => exact .listed fun entry => (h entry).symm

/-- **A tree that gives the names in its folders in another order.** -/
structure Reordered (t t' : Tree) : Prop where
  stat : t'.stat = t.stat
  list : ∀ path, SameNames (t.list path) (t'.list path)

namespace Reordered

variable {t' : Tree} (h : t.Reordered t')

include h

theorem symm : t'.Reordered t :=
  ⟨h.stat.symm, fun path => (h.list path).symm⟩

theorem isAny_eq (wanted : Kind → Bool) : t'.isAny wanted = t.isAny wanted := by
  funext path
  rw [isAny, isAny, h.stat]

theorem exists_list {entries : List Entry} (hlist : t'.list path = .ok entries) :
    ∃ entries', t.list path = .ok entries' ∧ ∀ entry, entry ∈ entries ↔ entry ∈ entries' := by
  have hsame := h.list path
  rw [hlist] at hsame
  generalize t.list path = answer at hsame ⊢
  cases hsame with
  | listed hsame => exact ⟨_, rfl, fun entry => (hsame entry).symm⟩

theorem sound (hsound : t.Sound) : t'.Sound where
  above hthere := by
    rw [isFolder, h.isAny_eq]
    rw [exists?, h.isAny_eq] at hthere
    exact hsound.above hthere
  listed hlist hname hthere := by
    obtain ⟨entries, hentries, hsame⟩ := h.exists_list hlist
    rw [exists?, h.isAny_eq] at hthere
    obtain ⟨entry, hentry, hentryName⟩ := hsound.listed hentries hname hthere
    exact ⟨entry, (hsame entry).mpr hentry, hentryName⟩
  named hlist entry hentry := by
    obtain ⟨entries, hentries, hsame⟩ := h.exists_list hlist
    exact hsound.named hentries entry ((hsame entry).mp hentry)
  agrees hlist entry hentry b hb := by
    obtain ⟨entries, hentries, hsame⟩ := h.exists_list hlist
    rw [isFolder, h.isAny_eq] at hb
    exact hsound.agrees hentries entry ((hsame entry).mp hentry) b hb
  real hlist entry hentry hreal b hb := by
    obtain ⟨entries, hentries, hsame⟩ := h.exists_list hlist
    rw [isFolder, h.isAny_eq] at hb
    exact hsound.real hentries entry ((hsame entry).mp hentry) hreal b hb

theorem reached (hpath : t'.Reached literal path) : t.Reached literal path := by
  induction hpath with
  | here => exact .here
  | literal _ hfolder hname ih =>
      rw [isFolder, h.isAny_eq] at hfolder
      exact .literal ih hfolder hname
  | entry _ hfolder hlist hentry ih =>
      obtain ⟨entries, hentries, hsame⟩ := h.exists_list hlist
      rw [isFolder, h.isAny_eq] at hfolder
      exact .entry ih hfolder hentries ((hsame _).mp hentry)

theorem opened (hopen : t.Open literal) : t'.Open literal where
  exists? hpath := by
    rw [Tree.exists?, h.isAny_eq]
    exact hopen.exists? (h.reached hpath)
  list {path} hpath hfolder := by
    rw [isFolder, h.isAny_eq] at hfolder
    have hsame := h.list path
    rcases hopen.list (h.reached hpath) hfolder with
      ⟨entries, hlist, hkinds⟩ | ⟨fault, hlist, hdenied⟩
    · rw [hlist] at hsame
      generalize t'.list path = answer at hsame ⊢
      cases hsame with
      | listed hsame =>
          exact .inl ⟨_, rfl, fun entry hentry => hkinds entry ((hsame entry).mpr hentry)⟩
    · rw [hlist] at hsame
      generalize t'.list path = answer at hsame ⊢
      cases hsame
      exact .inr ⟨fault, rfl, hdenied⟩

theorem descends {way : Path} (hway : t'.Descends folder way) : t.Descends folder way := by
  induction hway with
  | here => exact .here
  | into hlist hentry hfolder _ ih =>
      obtain ⟨entries, hentries, hsame⟩ := h.exists_list hlist
      exact .into hentries ((hsame _).mp hentry) hfolder ih

theorem fileFits {parts : List GlobPart} (hfits : t'.FileFits folder parts path) :
    t.FileFits folder parts path := by
  induction hfits with
  | done => exact .done
  | deep hway hrest _ ih => exact .deep (h.descends hway) hrest ih
  | name name _ ih => exact .name name ih
  | wild hlist hname hmatches _ ih =>
      obtain ⟨entries, hentries, -⟩ := h.exists_list hlist
      exact .wild hentries hname hmatches ih

theorem fileFits_iff {parts : List GlobPart} :
    t'.FileFits folder parts path ↔ t.FileFits folder parts path :=
  ⟨h.fileFits, h.symm.fileFits⟩

end Reordered

end Tree

end TokenCatalog.Project
