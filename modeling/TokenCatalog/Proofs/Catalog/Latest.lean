import TokenCatalog.Catalog.Merge
import TokenCatalog.Proofs.Json.Table

/-!
# Tokens by name

Of tokens with one name the last one counts, and it stands where the name first stood. Main
statements:

* `eq_latest_iff`: what `latest` gives is told by its names and by the last token of each;
* `latest_append_congr`: tokens can be thinned out piece by piece before they are joined.
-/

namespace TokenCatalog

/-- What a token is known by: its name, where names that are the same key are one. -/
def Token.identity (t : Token) : Key :=
  t.key.canonical

/-- A row of the table by name holds a token under a key of its own name. -/
theorem identity_of_row {tokens : List Token} {row : Key × Token}
    (hrow : row ∈ tableOf Key.same (tokens.map fun t => (t.key, t))) :
    row.1.canonical = row.2.identity ∧
      lastBy Token.identity row.1.canonical tokens = some row.2 := by
  have hlast := tableOf_last Key.same_eq hrow
  rw [lastBy_map, Option.map_map] at hlast
  replace hlast : lastBy Token.identity row.1.canonical tokens = some row.2 := by
    rwa [show ((fun x : Key × Token => x.2) ∘ fun t : Token => (t.key, t)) = id from rfl,
      Option.map_id, id] at hlast
  exact ⟨(lastBy_name hlast).symm, hlast⟩

theorem latest_identities (tokens : List Token) :
    (latest tokens).map Token.identity = (tokens.map Token.identity).eraseDups := by
  have hnames := tableOf_names Key.same_eq (tokens.map fun t => (t.key, t))
  rw [List.map_map] at hnames
  rw [latest, List.map_map]
  refine Eq.trans (List.map_congr_left fun row hrow => ?_) hnames
  exact (identity_of_row hrow).1.symm

theorem latest_nodup (tokens : List Token) : ((latest tokens).map Token.identity).Nodup := by
  rw [latest_identities]
  exact nodup_eraseDups _

theorem lastBy_of_mem_latest {tokens : List Token} {t : Token} (ht : t ∈ latest tokens) :
    lastBy Token.identity t.identity tokens = some t := by
  obtain ⟨row, hrow, rfl⟩ := List.mem_map.mp ht
  obtain ⟨hname, hlast⟩ := identity_of_row hrow
  rwa [hname] at hlast

/-- **Thinning out, characterized.** The names are those of the tokens in order of first appearance,
and each name has the last token of that name. -/
theorem eq_latest_iff {tokens found : List Token} :
    found = latest tokens ↔
      found.map Token.identity = (tokens.map Token.identity).eraseDups ∧
        ∀ t ∈ found, lastBy Token.identity t.identity tokens = some t := by
  constructor
  · rintro rfl
    exact ⟨latest_identities tokens, fun _ => lastBy_of_mem_latest⟩
  · rintro ⟨hnames, hlast⟩
    exact eq_of_last (lastBy Token.identity · tokens)
      (hnames.trans (latest_identities tokens).symm) hlast
      fun _ => lastBy_of_mem_latest

theorem latest_eq_nil_iff {tokens : List Token} : latest tokens = [] ↔ tokens = [] := by
  have hnames := latest_identities tokens
  constructor
  · intro h
    rw [h, List.map_nil] at hnames
    cases tokens with
    | nil => rfl
    | cons t rest =>
        rw [List.map_cons, List.eraseDups_cons] at hnames
        cases hnames
  · rintro rfl
    rfl

theorem latest_eq_self {tokens : List Token} (h : (tokens.map Token.identity).Nodup) :
    latest tokens = tokens := by
  refine (eq_latest_iff.mpr ⟨(eraseDups_eq_self h).symm, fun t ht => ?_⟩).symm
  obtain ⟨before, after, rfl⟩ := List.append_of_mem ht
  refine lastBy_eq_some_iff.mpr ⟨rfl, before, after, rfl, ?_⟩
  rw [List.map_append, List.map_cons] at h
  exact (List.nodup_cons.mp (List.nodup_append.mp h).2.1).1

theorem latest_latest (tokens : List Token) : latest (latest tokens) = latest tokens :=
  latest_eq_self (latest_nodup tokens)

/-! ## Piece by piece -/

/-- Thinning out loses the last token of no name. -/
theorem lastBy_latest (k : Key) (tokens : List Token) :
    lastBy Token.identity k (latest tokens) = lastBy Token.identity k tokens := by
  cases h : lastBy Token.identity k (latest tokens) with
  | some t =>
      obtain ⟨hk, before, after, hsplit, -⟩ := lastBy_eq_some_iff.mp h
      have ht : t ∈ latest tokens := by simp [hsplit]
      rw [← hk, lastBy_of_mem_latest ht]
  | none =>
      rw [lastBy_eq_none_iff, latest_identities, List.mem_eraseDups] at h
      exact (lastBy_eq_none_iff.mpr h).symm

theorem latest_append_congr {xs xs' ys ys' : List Token} (hxs : latest xs = latest xs')
    (hys : latest ys = latest ys') : latest (xs ++ ys) = latest (xs' ++ ys') := by
  -- the last token of a name in both parts is that of the second part, if it has one
  have hlast : ∀ k, lastBy Token.identity k (xs ++ ys) = lastBy Token.identity k (xs' ++ ys') := by
    intro k
    rw [lastBy_append, lastBy_append, ← lastBy_latest k xs, hxs, lastBy_latest,
      ← lastBy_latest k ys, hys, lastBy_latest]
  refine eq_latest_iff.mpr ⟨?_, fun t ht => ?_⟩
  · rw [latest_identities, List.map_append, List.map_append, eraseDups_append, eraseDups_append,
      ← latest_identities, ← latest_identities, ← latest_identities, ← latest_identities, hxs, hys]
  · rw [← hlast]
    exact lastBy_of_mem_latest ht

end TokenCatalog
