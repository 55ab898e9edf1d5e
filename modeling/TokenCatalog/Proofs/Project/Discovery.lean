import TokenCatalog.Proofs.Project.Layouts
import TokenCatalog.Proofs.Project.Respelled
import TokenCatalog.Proofs.Text.Search

/-!
# Discovery

Which files are found is decided by the project, the patterns that the project's pattern stands for,
and the rules of its ignore list. The order in which folders are read, the spelling of groups and
what is remarked in the ignore list have no part in it. Main statements:

* `exists_globParts_iff`: the patterns that files can be looked for with;
* `Tree.mem_found`: the files that are found;
* `Tree.discovery_determined`: what a search finds, and what it does not depend on.
-/

namespace TokenCatalog.Project

/-! ## Patterns that files can be looked for with -/

/-- A pattern from the root that has names, with two stars only as a name of their own. -/
structure IsGlob (pattern : List Char) : Prop where
  relative : pattern.head? ≠ some '/'
  named : Path.ofText pattern ≠ []
  stars : ∀ name ∈ Path.ofText pattern, hasTwoStars name = true → name = ['*', '*']

theorem exists_globPart_iff {name : List Char} :
    (∃ part, globPart name = .ok part) ↔ (hasTwoStars name = true → name = ['*', '*']) := by
  rw [globPart]
  by_cases hdeep : name = ['*', '*']
  · simp [hdeep]
  · by_cases hstars : hasTwoStars name = true
    · simp [hdeep, hstars]
    · by_cases hwild : name.any isWildcard = true
      · simp [hdeep, hstars, hwild]
      · simp [hdeep, hstars, hwild]

theorem eq_of_globPart {name name' : List Char} (h : globPart name = .ok (.name name')) :
    name = name' := by
  rw [globPart] at h
  split at h
  · cases h
  · split at h
    · cases h
    · split at h
      · cases h
      · cases h
        rfl

/-- The parts of a pattern are those of its names, and a slash at its end. -/
theorem globParts_eq {pattern : List Char} (hrelative : pattern.head? ≠ some '/')
    (hnamed : Path.ofText pattern ≠ []) :
    globParts pattern = ((Path.ofText pattern).mapM globPart).map fun parts =>
      if (pattern.getLast? == some '/') = true then parts ++ [.here] else parts := by
  have hne : ¬ pattern.isEmpty = true := by
    intro hempty
    rw [List.isEmpty_iff.mp hempty] at hnamed
    exact hnamed rfl
  rw [globParts, if_neg hne, if_neg hrelative]
  split
  · next hnone _ => exact absurd hnone hnamed
  · next hnone _ => exact absurd hnone hnamed
  · cases (Path.ofText pattern).mapM globPart <;> rfl

/-- **The patterns that files can be looked for with.** -/
theorem exists_globParts_iff {pattern : List Char} :
    (∃ parts, globParts pattern = .ok parts) ↔ IsGlob pattern := by
  constructor
  · rintro ⟨parts, hparts⟩
    have hrelative : pattern.head? ≠ some '/' := by
      intro habsolute
      rw [globParts, if_pos habsolute] at hparts
      split at hparts <;> cases hparts
    have hnamed : Path.ofText pattern ≠ [] := by
      intro hnone
      rw [globParts, if_neg hrelative, hnone] at hparts
      split at hparts
      · cases hparts
      · cases hlast : pattern.getLast? == some '/' with
        | true =>
            rw [hlast] at hparts
            cases hparts
        | false =>
            rw [hlast] at hparts
            cases hparts
    rw [globParts_eq hrelative hnamed] at hparts
    obtain ⟨named, hnames, -⟩ := exists_of_map_eq_ok hparts
    have hall := exists_mapM_eq_ok_iff.mp ⟨named, hnames⟩
    exact ⟨hrelative, hnamed, fun name hname => exists_globPart_iff.mp (hall name hname)⟩
  · intro h
    obtain ⟨named, hnames⟩ := exists_mapM_eq_ok_iff.mpr fun name hname =>
      exists_globPart_iff.mpr (h.stars name hname)
    rw [globParts_eq h.relative h.named, hnames]
    exact ⟨_, rfl⟩

/-- A part that is a name is one of the names of the pattern. -/
theorem mem_ofText_of_globParts {pattern name : List Char} {parts : List GlobPart}
    (hparts : globParts pattern = .ok parts) (hname : .name name ∈ parts) :
    name ∈ Path.ofText pattern := by
  have hglob := exists_globParts_iff.mp ⟨parts, hparts⟩
  rw [globParts_eq hglob.relative hglob.named] at hparts
  obtain ⟨named, hnames, rfl⟩ := exists_of_map_eq_ok hparts
  have hmem : .name name ∈ named := by
    split at hname
    · simpa using hname
    · exact hname
  obtain ⟨name', hin, hpart⟩ := (mem_iff_of_mapM hnames).mp hmem
  rwa [← eq_of_globPart hpart]

theorem ne_nil_of_globParts {pattern : List Char} {parts : List GlobPart}
    (hparts : globParts pattern = .ok parts) : parts ≠ [] := by
  have hglob := exists_globParts_iff.mp ⟨parts, hparts⟩
  rw [globParts_eq hglob.relative hglob.named] at hparts
  obtain ⟨named, hnames, rfl⟩ := exists_of_map_eq_ok hparts
  have hne : named ≠ [] := by
    rintro rfl
    cases hpath : Path.ofText pattern with
    | nil => exact hglob.named hpath
    | cons name names =>
        rw [hpath, mapM_eq_ok_iff] at hnames
        cases hnames
  split
  · exact List.append_ne_nil_of_left_ne_nil hne _
  · exact hne

/-- The names of the patterns that a pattern stands for. -/
def Names (pattern : String) (name : List Char) : Prop :=
  ∃ e ∈ expandBraces pattern.toList, name ∈ Path.ofText e

/-! ## Files that are found -/

namespace Tree

variable {t t' : Tree} {pattern : String} {ignore : List String} {parts : List GlobPart}
  {path : Path}

/-- **Whether the path of a file fits a pattern**, name by name. -/
def Fits (t : Tree) (pattern : List Char) (path : Path) : Prop :=
  ∃ parts, globParts pattern = .ok parts ∧ t.FileFits [] parts path

theorem filesAmong_eq_ok {paths : List Path} (h : ∀ path ∈ paths, ∃ b, t.isFile path = .ok b) :
    ∃ files, t.filesAmong paths = .ok files ∧
      ∀ path, path ∈ files ↔ path ∈ paths ∧ t.isFile path = .ok true := by
  induction paths with
  | nil => exact ⟨[], rfl, by simp⟩
  | cons path paths ih =>
      rw [List.forall_mem_cons] at h
      obtain ⟨⟨b, hb⟩, hpaths⟩ := h
      obtain ⟨files, hfiles, hmem⟩ := ih hpaths
      refine ⟨_, by rw [filesAmong, hb, hfiles]; rfl, fun other => ?_⟩
      cases b with
      | true =>
          rw [if_pos rfl, List.mem_cons, List.mem_cons, hmem, or_and_right]
          exact or_congr_left (iff_self_and.mpr fun hsame => hsame ▸ hb)
      | false =>
          rw [if_neg Bool.false_ne_true, List.mem_cons, hmem, or_and_right]
          refine (or_iff_right ?_).symm
          rintro ⟨rfl, hfile⟩
          cases hb.symm.trans hfile

def filesIn (t : Tree) (parts : List GlobPart) : List Path :=
  (t.filesOf parts).toOption.getD []

/-- The files that any of several patterns selects and no rule leaves out, in order. -/
def found (t : Tree) (rules : List IgnoreRule) (patterns : List (List GlobPart)) : List Path :=
  inPathOrder ((patterns.map t.filesIn).flatten.filter fun path => !ignored rules path.text)

section

variable {literal : List Char → Prop} (h : t.Sound) (hopen : t.Open literal)

include h hopen

theorem filesOf_eq_ok (hliteral : ∀ name, .name name ∈ parts → literal name) (hne : parts ≠ []) :
    t.filesOf parts = .ok (t.filesIn parts) ∧
      ∀ path, path ∈ t.filesIn parts ↔ t.isFile path = .ok true ∧ t.FileFits [] parts path := by
  suffices hfiles : ∃ files, t.filesOf parts = .ok files ∧
      ∀ path, path ∈ files ↔ t.isFile path = .ok true ∧ t.FileFits [] parts path by
    obtain ⟨files, hfiles, hmem⟩ := hfiles
    rw [filesIn, hfiles]
    exact ⟨rfl, hmem⟩
  obtain ⟨b, hb⟩ := hopen.isAny .here (· == .folder)
  have hroot : t.isFolder [] = .ok b := hb
  cases b with
  | false =>
      refine ⟨[], by rw [filesOf, hroot]; rfl, fun path => ?_⟩
      refine iff_of_false List.not_mem_nil ?_
      rintro ⟨hfile, hfits⟩
      obtain ⟨part, parts, rfl⟩ := List.exists_cons_of_ne_nil hne
      obtain ⟨name, names, rfl⟩ := List.exists_cons_of_ne_nil hfits.ne_nil
      have hfolder : t.isFolder [] = .ok true := h.isFolder_of_append (exists_of_isAny hfile)
      cases hroot.symm.trans hfolder
  | true =>
      have hgives := select_gives h hopen hliteral .here fun _ => hroot
      have hfiles : ∀ path ∈ (t.select parts []).found, ∃ b, t.isFile path = .ok b := by
        intro path hpath
        have hreached := reached_of_selected h hopen hliteral .here (fun _ => hroot)
          ((hgives.found path).mp hpath)
        exact hopen.isAny hreached _
      obtain ⟨files, hfiles, hmem⟩ := filesAmong_eq_ok hfiles
      refine ⟨files, by simp [filesOf, hroot, hfiles, hgives.done, bind, Except.bind],
        fun path => ?_⟩
      rw [hmem, hgives.found, and_comm]
      exact and_congr_right fun hfile => selected_iff h hopen hliteral hroot hfile

end

section

variable (h : t.Sound) (hopen : t.Open (Names pattern))

include h hopen

/-- The files that a pattern without brace groups selects, if it stands for one of those that a
pattern stands for. -/
theorem filesOf_of_mem {e : List Char} (he : e ∈ expandBraces pattern.toList)
    (hparts : globParts e = .ok parts) :
    t.filesOf parts = .ok (t.filesIn parts) ∧
      ∀ path, path ∈ t.filesIn parts ↔ t.isFile path = .ok true ∧ t.FileFits [] parts path :=
  filesOf_eq_ok h hopen (fun _ hname => ⟨e, he, mem_ofText_of_globParts hparts hname⟩)
    (ne_nil_of_globParts hparts)

/-- **A search**: the rules are read, then the patterns one after the other. -/
theorem discover_eq (ignore : List String) :
    t.discover pattern ignore =
      ((ignoreRules (ignore.map String.toList)).mapError .ignoreList >>= fun rules =>
        (((expandBraces pattern.toList).mapM globParts).mapError .glob).map (t.found rules)) := by
  have hglob : (expandBraces pattern.toList).mapM t.glob =
      (expandBraces pattern.toList).mapM fun e => ((globParts e).mapError .glob).map t.filesIn := by
    refine mapM_congr fun e he => ?_
    rw [glob]
    cases hparts : globParts e with
    | error fault => rfl
    | ok parts =>
        have hfiles := (filesOf_of_mem h hopen he hparts).1
        simp only [Except.mapError, bind, Except.bind, hfiles, Except.map]
  rw [discover, hglob, mapM_map_eq, mapM_mapError_eq]
  refine bind_congr fun rules => ?_
  cases (expandBraces pattern.toList).mapM globParts <;> rfl

/-- **The files that are found.** -/
theorem mem_found {rules : List IgnoreRule} {patterns : List (List GlobPart)}
    (hpatterns : ∀ parts ∈ patterns, ∃ e ∈ expandBraces pattern.toList, globParts e = .ok parts) :
    path ∈ t.found rules patterns ↔
      t.isFile path = .ok true ∧ (∃ parts ∈ patterns, t.FileFits [] parts path) ∧
        ignored rules path.text = false := by
  have hfiles : ∀ parts ∈ patterns, (path ∈ t.filesIn parts ↔
      t.isFile path = .ok true ∧ t.FileFits [] parts path) := by
    intro parts hin
    obtain ⟨e, he, hparts⟩ := hpatterns parts hin
    exact (filesOf_of_mem h hopen he hparts).2 path
  simp only [found, mem_inPathOrder, List.mem_filter, List.mem_flatten, List.mem_map,
    Bool.not_eq_true', exists_exists_and_eq_and]
  constructor
  · rintro ⟨⟨parts, hin, hpath⟩, hkept⟩
    obtain ⟨hfile, hfits⟩ := (hfiles parts hin).mp hpath
    exact ⟨hfile, ⟨parts, hin, hfits⟩, hkept⟩
  · rintro ⟨hfile, ⟨parts, hin, hfits⟩, hkept⟩
    exact ⟨⟨parts, hin, (hfiles parts hin).mpr ⟨hfile, hfits⟩⟩, hkept⟩

theorem pairwise_found (rules : List IgnoreRule) {patterns : List (List GlobPart)}
    (hpatterns : ∀ parts ∈ patterns, ∃ e ∈ expandBraces pattern.toList, globParts e = .ok parts) :
    (t.found rules patterns).Pairwise Path.Before := by
  apply pairwise_inPathOrder
  intro path hpath
  have hfound : path ∈ t.found rules patterns := mem_inPathOrder.mpr hpath
  obtain ⟨hfile, ⟨parts, hin, hfits⟩, -⟩ := (mem_found h hopen hpatterns).mp hfound
  obtain ⟨e, he, hparts⟩ := hpatterns parts hin
  refine hfits.isName h (fun name hname => ?_) hfile
  exact isName_of_mem_ofText (mem_ofText_of_globParts hparts hname)

end

end Tree

/-! ## Ignore lists -/

theorem exists_ignoreRules_iff {patterns : List (List Char)} :
    (∃ rules, ignoreRules patterns = .ok rules) ↔
      ∀ line ∈ ignoreLines patterns, ∃ rule, ignoreRule? line = .ok rule := by
  rw [← exists_mapM_eq_ok_iff]
  constructor
  · rintro ⟨rules, hrules⟩
    obtain ⟨found, hfound, -⟩ := exists_of_bind_eq_ok hrules
    exact ⟨found, hfound⟩
  · rintro ⟨found, hfound⟩
    refine ⟨found.filterMap id, ?_⟩
    rw [ignoreRules, hfound]
    rfl

/-- A line of an ignore list that says nothing: it is blank, or a number sign is the first of its
characters that is not. -/
def IsRemark (line : List Char) : Prop :=
  ∃ blanks rest, line = blanks ++ rest ∧ (∀ c ∈ blanks, Text.isBlank c = true) ∧
    ∀ c ∈ rest.head?, c = '#'

theorem head?_strip_of_isRemark {line : List Char} (h : IsRemark line) :
    ∀ c ∈ (Text.strip line).head?, c = '#' := by
  obtain ⟨blanks, rest, rfl, hblanks, hrest⟩ := h
  rw [Text.strip_append_of_blank hblanks]
  obtain ⟨left, right, hleft, -, hsplit⟩ := Text.exists_of_strip rest
  cases left with
  | nil =>
      intro c hc
      apply hrest
      rw [hsplit, List.nil_append]
      exact List.mem_head?_append_of_mem_head? hc
  | cons d left =>
      -- a blank is no number sign
      rw [hsplit] at hrest
      have hsign : d = '#' := hrest d rfl
      rw [hsign] at hleft
      exact absurd (hleft _ List.mem_cons_self) (by decide)

/-- **Remarks may stand anywhere in an ignore list.** -/
theorem ignoreLines_remark {line : List Char} (h : IsRemark line) (front back : List (List Char)) :
    ignoreLines (front ++ line :: back) = ignoreLines (front ++ back) := by
  have hleft : (!(Text.strip line).isEmpty && (Text.strip line).head? != some '#') = false := by
    cases hstrip : Text.strip line with
    | nil => rfl
    | cons c rest =>
        have hsign := head?_strip_of_isRemark h c (by rw [hstrip]; rfl)
        rw [hsign]
        rfl
  simp only [ignoreLines, List.map_append, List.map_cons, List.filter_append]
  rw [List.filter_cons_of_neg (by rw [hleft]; decide)]


/-! ## What a search depends on -/

namespace Tree

variable {t t' : Tree} {pattern pattern' : String} {ignore : List String} {paths : List Path}

section

variable (h : t.Sound) (hopen : t.Open (Names pattern))

include h hopen

/-- A search finds files if the rules and the patterns can be read. -/
theorem discover_eq_ok_iff :
    t.discover pattern ignore = .ok paths ↔
      ∃ rules patterns, ignoreRules (ignore.map String.toList) = .ok rules ∧
        (expandBraces pattern.toList).mapM globParts = .ok patterns ∧
        t.found rules patterns = paths := by
  rw [discover_eq h hopen]
  simp only [bind_eq_ok_iff]
  constructor
  · rintro ⟨rules, hrules, hpaths⟩
    obtain ⟨patterns, hpatterns, hfound⟩ := exists_of_map_eq_ok hpaths
    exact ⟨rules, patterns, eq_ok_of_mapError hrules, eq_ok_of_mapError hpatterns, hfound⟩
  · rintro ⟨rules, patterns, hrules, hpatterns, rfl⟩
    exact ⟨rules, congrArg _ hrules, by rw [hpatterns]; rfl⟩

/-- A search finds something, be it nothing, if all patterns and lines can be read. -/
theorem exists_discover_iff :
    (∃ paths, t.discover pattern ignore = .ok paths) ↔
      (∀ e ∈ expandBraces pattern.toList, IsGlob e) ∧
        ∀ line ∈ ignoreLines (ignore.map String.toList), ∃ rule, ignoreRule? line = .ok rule := by
  rw [← exists_ignoreRules_iff]
  simp only [discover_eq_ok_iff h hopen, ← exists_globParts_iff, ← exists_mapM_eq_ok_iff]
  constructor
  · rintro ⟨_, rules, patterns, hrules, hpatterns, rfl⟩
    exact ⟨⟨patterns, hpatterns⟩, rules, hrules⟩
  · rintro ⟨⟨patterns, hpatterns⟩, rules, hrules⟩
    exact ⟨_, rules, patterns, hrules, hpatterns, rfl⟩

/-- What a search finds. -/
theorem paths_of_discover (hpaths : t.discover pattern ignore = .ok paths) :
    paths.Pairwise Path.Before ∧
      ∃ rules, ignoreRules (ignore.map String.toList) = .ok rules ∧
        ∀ path, path ∈ paths ↔ t.isFile path = .ok true ∧
          (∃ e ∈ expandBraces pattern.toList, t.Fits e path) ∧ ignored rules path.text = false := by
  obtain ⟨rules, patterns, hrules, hpatterns, rfl⟩ := (discover_eq_ok_iff h hopen).mp hpaths
  have hsame := fun parts => mem_iff_of_mapM hpatterns (y := parts)
  refine ⟨pairwise_found h hopen rules fun parts => (hsame parts).mp, rules, hrules, fun path => ?_⟩
  rw [mem_found h hopen fun parts => (hsame parts).mp]
  simp only [hsame, Fits]
  constructor
  · rintro ⟨hfile, ⟨parts, ⟨e, he, hparts⟩, hpath⟩, hkept⟩
    exact ⟨hfile, ⟨e, he, parts, hparts, hpath⟩, hkept⟩
  · rintro ⟨hfile, ⟨e, he, parts, hparts, hpath⟩, hkept⟩
    exact ⟨hfile, ⟨parts, ⟨e, he, hparts⟩, hpath⟩, hkept⟩

/-- What is found is determined by which paths are those of files and which of them fit. -/
theorem found_congr (h' : t'.Sound) (hopen' : t'.Open (Names pattern')) (rules : List IgnoreRule)
    {patterns patterns' : List (List GlobPart)}
    (hpatterns : ∀ parts ∈ patterns, ∃ e ∈ expandBraces pattern.toList, globParts e = .ok parts)
    (hpatterns' : ∀ parts ∈ patterns', ∃ e ∈ expandBraces pattern'.toList, globParts e = .ok parts)
    (hfile : t.isFile = t'.isFile)
    (hfits : ∀ path, (∃ parts ∈ patterns, t.FileFits [] parts path) ↔
      ∃ parts ∈ patterns', t'.FileFits [] parts path) :
    t.found rules patterns = t'.found rules patterns' := by
  apply (pairwise_found h hopen rules hpatterns).eq_of_mem_iff
    (pairwise_found h' hopen' rules hpatterns')
  intro path
  rw [mem_found h hopen hpatterns, mem_found h' hopen' hpatterns', hfile, hfits]

/-- The order of the names in folders changes neither what is found nor a fault. -/
theorem discover_reordered (hsame : t.Reordered t') (ignore : List String) :
    t'.discover pattern ignore = t.discover pattern ignore := by
  have h' := hsame.sound h
  have hopen' := hsame.opened hopen
  rw [discover_eq h hopen, discover_eq h' hopen']
  refine bind_congr fun rules => ?_
  cases hpatterns : (expandBraces pattern.toList).mapM globParts with
  | error fault => rfl
  | ok patterns =>
      have hread := fun parts => (mem_iff_of_mapM hpatterns (y := parts)).mp
      refine congrArg Except.ok (found_congr h' hopen' h hopen rules hread hread ?_ ?_)
      · exact hsame.isAny_eq _
      · simp only [hsame.fileFits_iff, implies_true]

/-- Patterns that stand for the same patterns find the same files. -/
theorem discover_of_same
    (hsame : ∀ e, e ∈ expandBraces pattern.toList ↔ e ∈ expandBraces pattern'.toList)
    (hopen' : t.Open (Names pattern')) (hpaths : t.discover pattern ignore = .ok paths) :
    t.discover pattern' ignore = .ok paths := by
  obtain ⟨rules, patterns, hrules, hpatterns, rfl⟩ := (discover_eq_ok_iff h hopen).mp hpaths
  have hall := exists_mapM_eq_ok_iff.mp ⟨patterns, hpatterns⟩
  obtain ⟨patterns', hpatterns'⟩ :=
    exists_mapM_eq_ok_iff.mpr fun e he => hall e ((hsame e).mpr he)
  have hread := fun parts => mem_iff_of_mapM hpatterns (y := parts)
  have hread' := fun parts => mem_iff_of_mapM hpatterns' (y := parts)
  refine (discover_eq_ok_iff h hopen').mpr ⟨rules, patterns', hrules, hpatterns', ?_⟩
  apply found_congr h hopen' h hopen rules (fun parts => (hread' parts).mp)
    (fun parts => (hread parts).mp) rfl
  simp only [hread, hread', hsame, implies_true]

end

/-- A respelled pattern finds the same files. -/
theorem discover_respelled_iff (h : t.Sound) (hopen : t.Open (Names pattern)) {p q : Pattern}
    (hp : p.WellFormed) (hrespells : p.Respells q) (htext : p.text = pattern.toList)
    (ignore : List String) (paths : List Path) :
    t.discover (String.ofList q.text) ignore = .ok paths ↔
      t.discover pattern ignore = .ok paths := by
  have hsame : ∀ e, e ∈ expandBraces pattern.toList ↔
      e ∈ expandBraces (String.ofList q.text).toList := by
    rw [← htext, String.toList_ofList]
    exact mem_expandBraces_respelled hp hrespells
  have hnames : Names (String.ofList q.text) = Names pattern := by
    funext name
    simp only [Names, hsame]
  have hopen' : t.Open (Names (String.ofList q.text)) := hnames ▸ hopen
  constructor
  · exact discover_of_same h hopen' (fun e => (hsame e).symm) hopen
  · exact discover_of_same h hopen hsame hopen'

/-- Remarks in the ignore list change neither what is found nor a fault. -/
theorem discover_remark {line : String} (h : IsRemark line.toList) (pattern : String)
    (front back : List String) :
    t.discover pattern (front ++ line :: back) = t.discover pattern (front ++ back) := by
  have hrules : ignoreRules ((front ++ line :: back).map String.toList) =
      ignoreRules ((front ++ back).map String.toList) := by
    rw [ignoreRules, ignoreRules, List.map_append, List.map_append, List.map_cons,
      ignoreLines_remark h]
  rw [discover, discover, hrules]

/-- **What a search finds is determined by the project, the patterns and the rules**, where all can
be looked at that a search with the patterns may come to. It finds something, be it nothing, exactly
if files can be looked for with all patterns that the pattern stands for and every line of the
ignore list is a pattern. Then the paths that are found increase strictly in the order of their
texts, and are those of files that fit one of the patterns and are not ignored. The order of the
names in folders changes nothing, nor do the order of alternatives in a group and how often each of
them is written, nor do remarks in the ignore list. -/
theorem discovery_determined (h : t.Sound) (pattern : String) (ignore : List String)
    (hopen : t.Open (Names pattern)) :
    ((∃ paths, t.discover pattern ignore = .ok paths) ↔
        (∀ e ∈ expandBraces pattern.toList, IsGlob e) ∧
          ∀ line ∈ ignoreLines (ignore.map String.toList), ∃ rule, ignoreRule? line = .ok rule) ∧
      (∀ paths, t.discover pattern ignore = .ok paths →
        paths.Pairwise Path.Before ∧
          ∃ rules, ignoreRules (ignore.map String.toList) = .ok rules ∧
            ∀ path, path ∈ paths ↔ t.isFile path = .ok true ∧
              (∃ e ∈ expandBraces pattern.toList, t.Fits e path) ∧
                ignored rules path.text = false) ∧
      (∀ t', t.Reordered t' → t'.discover pattern ignore = t.discover pattern ignore) ∧
      (∀ p q : Pattern, p.WellFormed → p.text = pattern.toList → p.Respells q → ∀ paths,
        t.discover (String.ofList q.text) ignore = .ok paths ↔
          t.discover pattern ignore = .ok paths) ∧
      ∀ front line back, ignore = front ++ back → IsRemark line.toList →
        t.discover pattern (front ++ line :: back) = t.discover pattern ignore := by
  refine ⟨exists_discover_iff h hopen, fun paths => paths_of_discover h hopen, ?_, ?_, ?_⟩
  · exact fun t' hsame => discover_reordered h hopen hsame ignore
  · intro p q hp htext hrespells paths
    exact discover_respelled_iff h hopen hp hrespells htext ignore paths
  · rintro front line back rfl hremark
    exact discover_remark hremark pattern front back

/-- A tree with the names in each folder from the end. -/
def reversed (t : Tree) : Tree where
  stat := t.stat
  list path := (t.list path).map List.reverse
  resolve := t.resolve
  height := t.height
  height_lt {path entries entry} hlist hentry := by
    obtain ⟨found, hfound, rfl⟩ := exists_of_map_eq_ok hlist
    exact t.height_lt hfound (List.mem_reverse.mp hentry)

theorem reordered_reversed (t : Tree) : t.Reordered t.reversed where
  stat := rfl
  list path := by
    change SameNames (t.list path) ((t.list path).map List.reverse)
    cases t.list path with
    | error fault => exact .refused fault
    | ok entries => exact .listed fun entry => List.mem_reverse.symm

end Tree

def twoFiles : Layout := .ofPaths [[['p'], ['a']], [['p'], ['b']]] []

def eitherName : Pattern :=
  .group (.more (.char 'a' .empty) (.last (.char 'b' .empty))) .empty

def eitherNameAgain : Pattern :=
  .group (.more (.char 'b' .empty) (.more (.char 'a' .empty) (.last (.char 'b' .empty)))) .empty

theorem respells_eitherName : eitherName.Respells eitherNameAgain := by
  apply Pattern.Respells.group
  intro p
  simp only [Alternatives.toList, List.mem_cons, List.not_mem_nil]
  tauto

theorem Tree.discovery_determined_twoFiles :
    let t := twoFiles.tree "/p".toList [['p']]
    ∃ paths, t.discover "\x7ba,b\x7d" [] = .ok paths ∧ paths.Pairwise Path.Before ∧
      [['a']] ∈ paths ∧ t.reversed.discover "\x7ba,b\x7d" [] = .ok paths ∧
      t.discover "\x7bb,a,b\x7d" [] = .ok paths ∧
      t.discover "\x7ba,b\x7d" [" # c"] = .ok paths := by
  intro t
  have hnames : twoFiles.WellNamed := by decide
  have hsound : t.Sound := Layout.sound_tree hnames
  have hopen : t.Open (Names "\x7ba,b\x7d") := Layout.open_tree hnames rfl _
  obtain ⟨hfinds, hpaths, horders, hspellings, hremarks⟩ :=
    discovery_determined hsound "\x7ba,b\x7d" [] hopen
  have hglobs : ∀ e ∈ expandBraces "\x7ba,b\x7d".toList, IsGlob e := by
    intro e he
    have hexpanded : expandBraces "\x7ba,b\x7d".toList = [['a'], ['b']] := by decide
    rw [hexpanded] at he
    rcases List.mem_pair.mp he with rfl | rfl <;> exact ⟨by decide, by decide, by decide⟩
  have hlines : ∀ line ∈ ignoreLines [], ∃ rule, ignoreRule? line = .ok rule := nofun
  obtain ⟨paths, hsearch⟩ := hfinds.mpr ⟨hglobs, hlines⟩
  obtain ⟨hordered, rules, hrules, hmem⟩ := hpaths paths hsearch
  cases hrules
  have hfits : t.Fits ['a'] [['a']] := ⟨[.name ['a']], by decide, .name _ .done⟩
  have hspace : Text.isBlank ' ' = true := by decide
  have hremark : IsRemark " # c".toList := ⟨[' '], ['#', ' ', 'c'], rfl, by simp [hspace], by simp⟩
  refine ⟨paths, hsearch, hordered, (hmem _).mpr ⟨?_, ⟨_, by decide, hfits⟩, rfl⟩, ?_, ?_, ?_⟩
  · decide +kernel
  · rw [horders _ t.reordered_reversed, hsearch]
  · have hform : eitherName.WellFormed := ⟨by decide, by decide⟩
    exact (hspellings _ _ hform (by decide) respells_eitherName paths).mpr hsearch
  · rw [← hsearch]
    exact hremarks [] _ [] rfl hremark

/-- A project of one stylesheet. -/
def oneStylesheet : Tree :=
  (Layout.ofPaths [["p".toList, "a.css".toList]] []).tree "/p".toList ["p".toList]

/-- A folder with a stylesheet, and a link into a closed folder. -/
def linkIntoClosed : Tree :=
  Layout.tree
    { Layout.ofPaths [["d".toList, "a.css".toList], ["shut".toList, "e".toList, "x".toList]] [] with
      links := [(["c".toList], some ["shut".toList, "e".toList])]
      closed := [["shut".toList]] }
    "/".toList []

/-- An alternative that fits no file may still keep the others from finding theirs, since the search
is refused if two stars are only part of a name. A link into a closed folder may be refused as well,
or keep the names that come after it in its folder from being looked at, in whatever order they
come. -/
theorem Tree.discover_not_determined :
    (oneStylesheet.isFile ["a.css".toList] = .ok true ∧
      (∃ e ∈ expandBraces "\x7ba.css,**.css\x7d".toList, oneStylesheet.Fits e ["a.css".toList]) ∧
      oneStylesheet.discover "\x7ba.css,**.css\x7d" [] = .error (.glob .partlyDeep)) ∧
    linkIntoClosed.discover "*" [] = .error (.access ⟨.denied, "/c"⟩) ∧
    linkIntoClosed.discover "*/a.css" [] = .ok [["d".toList, "a.css".toList]] ∧
    linkIntoClosed.Reordered linkIntoClosed.reversed ∧
    linkIntoClosed.reversed.discover "*/a.css" [] = .ok [] := by
  refine ⟨⟨by decide +kernel, ?_, ?_⟩, ?_, ?_, reordered_reversed _, ?_⟩
  · exact ⟨"a.css".toList, by decide, [.name "a.css".toList], by decide, .name _ .done⟩
  · decide +kernel
  · decide +kernel
  · decide +kernel
  · decide +kernel

end TokenCatalog.Project
