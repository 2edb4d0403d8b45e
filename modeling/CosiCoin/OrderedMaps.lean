import Mathlib.Data.List.Perm.Basic
import Mathlib.Order.Defs.Unbundled

/-!
# Maps kept in the order of their keys

An ordered map is the list of its entries with increasing keys.  Besides search
and assignment it has the access by subscript, which is not a mere reading: a
key without an entry gets one with the default value.

The map is unchanged by a subscript whose key has an entry
(`subscript_snd_of_find`), and otherwise it has one more entry
(`size_subscript_of_find_eq_none`), of the default value
(`values_subscript_of_find_eq_none`).
-/

namespace OrderedMaps

universe u v

section Entries

variable {κ : Type u} [LT κ] [DecidableLT κ]
variable {ν : Type v}

/-- The value at a key, searched in the order of the keys. -/
def findEntry (k : κ) : List (κ × ν) → Option ν
  | [] => none
  | e :: l =>
      if k < e.1 then none
      else if e.1 < k then findEntry k l
      else some e.2

/-- Insert a value at a key, or replace the value that is there. -/
def assignEntry (k : κ) (x : ν) : List (κ × ν) → List (κ × ν)
  | [] => [(k, x)]
  | e :: l =>
      if k < e.1 then (k, x) :: e :: l
      else if e.1 < k then e :: assignEntry k x l
      else (e.1, x) :: l

theorem key_of_mem_assignEntry
    {k : κ} {x : ν} {l : List (κ × ν)} {e : κ × ν}
    (h : e ∈ assignEntry k x l) :
    e.1 = k ∨ ∃ e' ∈ l, e'.1 = e.1 := by
  induction l with
  | nil =>
      rw [assignEntry, List.mem_singleton] at h
      exact Or.inl (by rw [h])
  | cons a l ih =>
      unfold assignEntry at h
      split_ifs at h with hlt hgt
      · rcases List.mem_cons.mp h with rfl | h
        · exact Or.inl rfl
        · exact Or.inr ⟨e, h, rfl⟩
      · rcases List.mem_cons.mp h with rfl | h
        · exact Or.inr ⟨e, List.mem_cons_self, rfl⟩
        · rcases ih h with hk | ⟨e', he', hkey⟩
          · exact Or.inl hk
          · exact Or.inr ⟨e', List.mem_cons_of_mem _ he', hkey⟩
      · rcases List.mem_cons.mp h with rfl | h
        · exact Or.inr ⟨a, List.mem_cons_self, rfl⟩
        · exact Or.inr ⟨e, List.mem_cons_of_mem _ h, rfl⟩

theorem assignEntry_pairwise
    [IsTrans κ (· < ·)]
    {k : κ} {x : ν} {l : List (κ × ν)}
    (hl : l.Pairwise fun a b => a.1 < b.1) :
    (assignEntry k x l).Pairwise fun a b => a.1 < b.1 := by
  induction l with
  | nil => exact List.pairwise_singleton _ _
  | cons a l ih =>
      obtain ⟨ha, hl'⟩ := List.pairwise_cons.mp hl
      unfold assignEntry
      split_ifs with hlt hgt
      · refine List.pairwise_cons.mpr ⟨?_, hl⟩
        intro b hb
        rcases List.mem_cons.mp hb with rfl | hb
        · exact hlt
        · exact IsTrans.trans (r := (· < ·)) k a.1 b.1 hlt (ha b hb)
      · refine List.pairwise_cons.mpr ⟨?_, ih hl'⟩
        intro b hb
        rcases key_of_mem_assignEntry hb with hk | ⟨b', hb', hkey⟩
        · rw [hk]
          exact hgt
        · rw [← hkey]
          exact ha b' hb'
      · exact List.pairwise_cons.mpr ⟨ha, hl'⟩

/-- A value at a new key is one more value. -/
theorem map_snd_assignEntry
    {k : κ} {x : ν} {l : List (κ × ν)}
    (h : findEntry k l = none) :
    ((assignEntry k x l).map Prod.snd).Perm (x :: l.map Prod.snd) := by
  induction l with
  | nil => exact List.Perm.refl _
  | cons a l ih =>
      unfold findEntry at h
      unfold assignEntry
      split_ifs at h ⊢ with hlt hgt
      · exact List.Perm.refl _
      · exact ((ih h).cons a.2).trans (List.Perm.swap x a.2 _)

end Entries

/-- A map with increasing keys. -/
structure OrderedMap (κ : Type u) [LT κ] (ν : Type v) where
  entries : List (κ × ν) := []
  sorted : entries.Pairwise fun a b => a.1 < b.1 := by exact List.Pairwise.nil

namespace OrderedMap

variable {κ : Type u} [LT κ] [DecidableLT κ] [IsTrans κ (· < ·)]
variable {ν : Type v}

/-- The value at a key. -/
def find (m : OrderedMap κ ν) (k : κ) : Option ν :=
  findEntry k m.entries

/-- Assignment to a subscript. -/
def assign (m : OrderedMap κ ν) (k : κ) (x : ν) : OrderedMap κ ν where
  entries := assignEntry k x m.entries
  sorted := assignEntry_pairwise m.sorted

/-- Reading a subscript: a missing entry is made first. -/
def subscript [Inhabited ν] (m : OrderedMap κ ν) (k : κ) : ν × OrderedMap κ ν :=
  match m.find k with
  | some x => (x, m)
  | none => (default, m.assign k default)

/-- The values in the order of their keys. -/
def values (m : OrderedMap κ ν) : List ν :=
  m.entries.map Prod.snd

/-- The number of entries. -/
def size (m : OrderedMap κ ν) : Nat :=
  m.entries.length

omit [DecidableLT κ] [IsTrans κ (· < ·)] in
@[simp] theorem length_values
    (m : OrderedMap κ ν) :
    m.values.length = m.size :=
  List.length_map _

variable [Inhabited ν]
variable {m : OrderedMap κ ν} {k : κ}

theorem subscript_of_find
    {x : ν}
    (h : m.find k = some x) :
    m.subscript k = (x, m) := by
  rw [subscript, h]

theorem subscript_snd_of_find
    (h : m.find k ≠ none) :
    (m.subscript k).2 = m := by
  obtain ⟨x, hx⟩ := Option.ne_none_iff_exists'.mp h
  rw [subscript_of_find hx]

theorem values_subscript_of_find_eq_none
    (h : m.find k = none) :
    (m.subscript k).2.values.Perm (default :: m.values) := by
  rw [subscript, h]
  exact map_snd_assignEntry h

theorem size_subscript_of_find_eq_none
    (h : m.find k = none) :
    (m.subscript k).2.size = m.size + 1 := by
  have hlen := (values_subscript_of_find_eq_none h).length_eq
  rwa [length_values, List.length_cons, length_values] at hlen

end OrderedMap

end OrderedMaps
