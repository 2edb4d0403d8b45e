import Mathlib.Data.Finset.Max
import Mathlib.Data.List.Nodup
import Mathlib.Data.List.Perm.Subperm
import Mathlib.Data.List.Sublists

/-!
# Erasing by recorded positions

A program that deletes several elements of a vector often records their
positions first and erases them one after the other.  An erasure moves every
later element one position to the front, so the recorded positions stay right
only when no position is larger than one erased before it.

`erasePositions l ps` erases at the positions `ps` in turn.  The result is
always a sublist of `l`; when the positions are decreasing, none of the recorded
elements is left (`getElem_notMem_erasePositions`), and only then
(`pairwise_gt_of_gone`): the result is `l` without them (`erasePositions_eq_filter`).  Going over to a sublist keeps the order of first
positions (`idxOf_le_idxOf_of_sublist`).
-/

namespace PositionalErase

universe u v

section ErasePositions

variable {α : Type u}
variable {β : Type v}

/-- Erase at the given positions, one after the other. -/
def erasePositions (l : List α) (positions : List Nat) : List α :=
  positions.foldl List.eraseIdx l

@[simp] theorem erasePositions_nil
    (l : List α) :
    erasePositions l [] = l := by
  rfl

@[simp] theorem erasePositions_cons
    (l : List α) (p : Nat) (ps : List Nat) :
    erasePositions l (p :: ps) = erasePositions (l.eraseIdx p) ps := by
  rfl

theorem erasePositions_sublist
    (l : List α) (ps : List Nat) :
    (erasePositions l ps).Sublist l := by
  induction ps generalizing l with
  | nil =>
      exact List.Sublist.refl l
  | cons p ps ih =>
      exact (ih (l.eraseIdx p)).trans (List.eraseIdx_sublist l p)

/-- One position inside the list is enough to shorten it. -/
theorem length_erasePositions_lt
    {l : List α} {ps : List Nat} {p : Nat}
    (hmem : p ∈ ps)
    (hp : p < l.length) :
    (erasePositions l ps).length < l.length := by
  induction ps with
  | nil =>
      simp at hmem
  | cons q ps ih =>
      rw [erasePositions_cons]
      by_cases hq : q < l.length
      · have hle := (erasePositions_sublist (l.eraseIdx q) ps).length_le
        rw [List.length_eraseIdx_of_lt hq] at hle
        omega
      · have hpq : p ≠ q := by omega
        rw [List.eraseIdx_of_length_le (by omega)]
        exact ih ((List.mem_cons.mp hmem).resolve_left hpq)

/-- In a list of distinct elements the erased one does not occur again. -/
theorem notMem_eraseIdx
    {l : List α}
    (hl : l.Nodup)
    {p : Nat} {x : α}
    (hx : l[p]? = some x) :
    x ∉ l.eraseIdx p := by
  intro hmem
  obtain ⟨q, hne, hq⟩ := List.mem_eraseIdx_iff_getElem?.mp hmem
  have hlt : q < l.length := (List.getElem?_eq_some_iff.mp hq).1
  exact hne ((List.getElem?_inj hlt hl).mp (hq.trans hx.symm))

theorem notMem_map_eraseIdx
    {f : α → β} {l : List α}
    (hl : (l.map f).Nodup)
    {p : Nat}
    (hp : p < l.length) :
    f l[p] ∉ (l.eraseIdx p).map f := by
  rw [← List.eraseIdx_map]
  refine notMem_eraseIdx hl ?_
  rw [List.getElem?_map, List.getElem?_eq_getElem hp]
  rfl

/-- Decreasing positions erase at least the recorded elements. -/
theorem getElem_notMem_erasePositions
    {f : α → β} {l : List α} {ps : List Nat}
    (hl : (l.map f).Nodup)
    (hdesc : ps.Pairwise (· ≥ ·))
    {p : Nat}
    (hmem : p ∈ ps)
    (hp : p < l.length) :
    f l[p] ∉ (erasePositions l ps).map f := by
  induction ps generalizing l with
  | nil =>
      simp at hmem
  | cons q ps ih =>
      obtain ⟨hhead, htail⟩ := List.pairwise_cons.mp hdesc
      have hl' : ((l.eraseIdx q).map f).Nodup :=
        hl.sublist ((List.eraseIdx_sublist l q).map f)
      by_cases hpq : p = q
      · subst hpq
        intro hcontra
        apply notMem_map_eraseIdx hl hp
        exact ((erasePositions_sublist _ ps).map f).subset hcontra
      · -- a smaller position still holds the same element after the first erasure
        have hmem : p ∈ ps := (List.mem_cons.mp hmem).resolve_left hpq
        have hlt : p < q := lt_of_le_of_ne (hhead p hmem) hpq
        have hp' : p < (l.eraseIdx q).length := by
          rw [List.length_eraseIdx]
          split_ifs <;> omega
        have hsame : (l.eraseIdx q)[p] = l[p] := List.getElem_eraseIdx_of_lt hp' hlt
        rw [← hsame]
        exact ih hl' htail hmem hp'

end ErasePositions

section RecordedElements

variable {α : Type u}

/-- The elements that stand at the given positions. -/
def recorded (l : List α) (positions : List Nat) : List α :=
  positions.filterMap fun p => l[p]?

theorem mem_recorded
    {l : List α} {ps : List Nat} {x : α} :
    x ∈ recorded l ps ↔ ∃ p ∈ ps, l[p]? = some x := by
  exact List.mem_filterMap

theorem nodup_recorded
    {l : List α} {ps : List Nat}
    (hl : l.Nodup)
    (hps : ps.Nodup) :
    (recorded l ps).Nodup := by
  refine hps.filterMap ?_
  intro p q x hp hq
  have hlt : p < l.length := (List.getElem?_eq_some_iff.mp hp).1
  exact (List.getElem?_inj hlt hl).mp (Eq.trans hp (Eq.symm hq))

theorem length_recorded
    {l : List α} {ps : List Nat}
    (hbound : ∀ p ∈ ps, p < l.length) :
    (recorded l ps).length = ps.length := by
  induction ps with
  | nil =>
      rfl
  | cons p ps ih =>
      obtain ⟨hp, hrest⟩ := List.forall_mem_cons.mp hbound
      have hcons : recorded l (p :: ps) = l[p] :: recorded l ps := by
        unfold recorded
        rw [List.filterMap_cons_some (List.getElem?_eq_getElem hp)]
      rw [hcons, List.length_cons, List.length_cons, ih hrest]

/-- Every erasure removes at most one element. -/
theorem length_le_length_erasePositions_add
    (l : List α) (ps : List Nat) :
    l.length ≤ (erasePositions l ps).length + ps.length := by
  induction ps generalizing l with
  | nil =>
      exact Nat.le_refl _
  | cons p ps ih =>
      have hstep := List.le_length_eraseIdx l p
      have hrest := ih (l.eraseIdx p)
      rw [erasePositions_cons, List.length_cons]
      omega

/-- Beyond all erased positions every erasure moves the elements by one. -/
theorem getElem?_erasePositions
    {l : List α} {ps : List Nat} {k : Nat}
    (h : ∀ p ∈ ps, p < k) :
    (erasePositions l ps)[k]? = l[k + ps.length]? := by
  induction ps generalizing l with
  | nil =>
      rfl
  | cons p ps ih =>
      obtain ⟨hp, hrest⟩ := List.forall_mem_cons.mp h
      rw [erasePositions_cons, ih hrest, List.getElem?_eraseIdx_of_ge (by omega), List.length_cons]
      rfl

/-- If no recorded element is left, nothing else was erased. -/
theorem erasePositions_perm
    {l : List α} {ps : List Nat}
    (hl : l.Nodup)
    (hps : ps.Nodup)
    (hbound : ∀ p ∈ ps, p < l.length)
    (hgone : ∀ x ∈ recorded l ps, x ∉ erasePositions l ps) :
    (erasePositions l ps ++ recorded l ps).Perm l := by
  have hnodup : (erasePositions l ps ++ recorded l ps).Nodup :=
    (hl.sublist (erasePositions_sublist l ps)).append (nodup_recorded hl hps)
      fun x hleft hrec => hgone x hrec hleft
  have hsubset : erasePositions l ps ++ recorded l ps ⊆ l := by
    intro x hx
    rcases List.mem_append.mp hx with hleft | hrec
    · exact (erasePositions_sublist l ps).subset hleft
    · obtain ⟨p, _, hp⟩ := mem_recorded.mp hrec
      exact List.mem_of_getElem? hp
  refine (hnodup.subperm hsubset).perm_of_length_le ?_
  rw [List.length_append, length_recorded hbound]
  exact length_le_length_erasePositions_add l ps

/-- In a list of distinct elements an erasure is a filter. -/
theorem eraseIdx_eq_filter
    [DecidableEq α]
    {l : List α}
    (hl : l.Nodup)
    (p : Nat) :
    l.eraseIdx p = l.filter fun x => l[p]? ≠ some x := by
  by_cases hp : p < l.length
  · rw [← hl.erase_getElem p hp, hl.erase_eq_filter]
    refine List.filter_congr ?_
    intro x _
    rw [List.getElem?_eq_getElem hp, bne_comm, Bool.eq_iff_iff]
    simp
  · rw [List.eraseIdx_of_length_le (by omega), List.getElem?_eq_none (by omega)]
    simp

/-- Decreasing positions erase the recorded elements and nothing else. -/
theorem erasePositions_eq_filter
    [DecidableEq α]
    {l : List α} {ps : List Nat}
    (hl : l.Nodup)
    (hdesc : ps.Pairwise (· > ·)) :
    erasePositions l ps = l.filter fun x => x ∉ recorded l ps := by
  induction ps generalizing l with
  | nil =>
      simp [recorded]
  | cons q ps ih =>
      obtain ⟨hhead, htail⟩ := List.pairwise_cons.mp hdesc
      -- the smaller positions still hold the same elements
      have hrest : recorded (l.eraseIdx q) ps = recorded l ps := by
        refine List.filterMap_congr ?_
        intro p hp
        exact List.getElem?_eraseIdx_of_lt (hhead p hp)
      rw [erasePositions_cons, ih (hl.eraseIdx q) htail, hrest, eraseIdx_eq_filter hl,
        List.filter_filter]
      refine List.filter_congr ?_
      intro x _
      rw [Bool.eq_iff_iff]
      simp only [Bool.and_eq_true, decide_eq_true_eq, mem_recorded, List.mem_cons]
      grind

/-- If no recorded element is left, nothing was erased before the largest position. -/
theorem eq_nil_of_gone
    {l : List α} {pre post : List Nat} {top : Nat}
    (hl : l.Nodup)
    (hps : (pre ++ top :: post).Nodup)
    (hbound : ∀ p ∈ pre ++ top :: post, p < l.length)
    (hgone : ∀ x ∈ recorded l (pre ++ top :: post), x ∉ erasePositions l (pre ++ top :: post))
    (hmax : ∀ p ∈ pre ++ top :: post, p ≤ top) :
    pre = [] := by
  have hperm := erasePositions_perm hl hps hbound hgone
  have hbelow : ∀ p ∈ pre, p < top := by
    intro p hp
    refine lt_of_le_of_ne (hmax p (List.mem_append_left _ hp)) ?_
    rintro rfl
    exact (List.nodup_append.mp hps).2.2 p hp p List.mem_cons_self rfl
  have herase : erasePositions l (pre ++ top :: post) =
      erasePositions ((erasePositions l pre).eraseIdx top) post := by
    simp [erasePositions]
  have hlive := getElem?_erasePositions (l := l) hbelow
  cases hx : l[top + pre.length]? with
  | none =>
      -- the erasure at `top` does nothing, so too many elements are left
      rw [hx, List.getElem?_eq_none_iff] at hlive
      rw [List.eraseIdx_of_length_le hlive] at herase
      have hlength := hperm.length_eq
      have hpre := length_le_length_erasePositions_add l pre
      have hpost := length_le_length_erasePositions_add (erasePositions l pre) post
      rw [List.length_append, length_recorded hbound, herase, List.length_append,
        List.length_cons] at hlength
      omega
  | some x =>
      -- the element erased at `top` stood beyond it unless `top` comes first
      rw [hx] at hlive
      have hlost : x ∉ erasePositions l (pre ++ top :: post) := by
        intro hleft
        rw [herase] at hleft
        have hnodup := hl.sublist (erasePositions_sublist l pre)
        exact notMem_eraseIdx hnodup hlive ((erasePositions_sublist _ post).subset hleft)
      have hrec : x ∈ recorded l (pre ++ top :: post) :=
        (List.mem_append.mp (hperm.mem_iff.mpr (List.mem_of_getElem? hx))).resolve_left hlost
      obtain ⟨p, hp, hpx⟩ := mem_recorded.mp hrec
      have hsame : p = top + pre.length :=
        (List.getElem?_inj (hbound p hp) hl).mp (hpx.trans hx.symm)
      have hle := hmax p hp
      exact List.length_eq_zero_iff.mp (by omega)

/-- If no recorded element is left, the largest position was erased first. -/
theorem forall_le_head
    {l : List α} {q : Nat} {rest : List Nat}
    (hl : l.Nodup)
    (hps : (q :: rest).Nodup)
    (hbound : ∀ p ∈ q :: rest, p < l.length)
    (hgone : ∀ x ∈ recorded l (q :: rest), x ∉ erasePositions l (q :: rest)) :
    ∀ p ∈ q :: rest, p ≤ q := by
  obtain ⟨top, htop, hmax⟩ := (q :: rest).toFinset.exists_max_image id ⟨q, by simp⟩
  obtain ⟨pre, post, hsplit⟩ := List.append_of_mem (List.mem_toFinset.mp htop)
  have hle : ∀ p ∈ q :: rest, p ≤ top := fun p hp => hmax p (List.mem_toFinset.mpr hp)
  have hpre : pre = [] := by
    rw [hsplit] at hps hbound hgone hle
    exact eq_nil_of_gone hl hps hbound hgone hle
  rw [hpre, List.nil_append, List.cons.injEq] at hsplit
  obtain ⟨rfl, rfl⟩ := hsplit
  exact hle

/-- Only decreasing positions erase all recorded elements. -/
theorem pairwise_gt_of_gone
    {l : List α} {ps : List Nat}
    (hl : l.Nodup)
    (hps : ps.Nodup)
    (hbound : ∀ p ∈ ps, p < l.length)
    (hgone : ∀ x ∈ recorded l ps, x ∉ erasePositions l ps) :
    ps.Pairwise (· > ·) := by
  induction ps generalizing l with
  | nil =>
      exact List.Pairwise.nil
  | cons q rest ih =>
      have hle := forall_le_head hl hps hbound hgone
      obtain ⟨hnotMem, hrest⟩ := List.nodup_cons.mp hps
      have hlt : ∀ p ∈ rest, p < q := by
        intro p hp
        refine lt_of_le_of_ne (hle p (List.mem_cons_of_mem _ hp)) ?_
        rintro rfl
        exact hnotMem hp
      have hq : q < l.length := hbound q List.mem_cons_self
      refine List.Pairwise.cons hlt (ih (hl.eraseIdx q) hrest ?_ ?_)
      · intro p hp
        have hpq := hlt p hp
        rw [List.length_eraseIdx_of_lt hq]
        omega
      · -- the smaller positions still hold the same elements
        intro x hx
        obtain ⟨p, hp, hpx⟩ := mem_recorded.mp hx
        rw [List.getElem?_eraseIdx_of_lt (hlt p hp)] at hpx
        exact hgone x (mem_recorded.mpr ⟨p, List.mem_cons_of_mem _ hp, hpx⟩)

/-- Decreasing positions stay inside the list while it gets shorter. -/
theorem add_lt_of_pairwise_gt
    {ps : List Nat} {n : Nat}
    (hdesc : ps.Pairwise (· > ·))
    (hbound : ∀ p ∈ ps, p < n)
    {k p : Nat}
    (hp : ps[k]? = some p) :
    p + k < n := by
  induction ps generalizing n k with
  | nil =>
      simp at hp
  | cons q ps ih =>
      obtain ⟨hhead, htail⟩ := List.pairwise_cons.mp hdesc
      have hq := hbound q List.mem_cons_self
      cases k with
      | zero =>
          obtain rfl : q = p := by simpa using hp
          exact hq
      | succ k =>
          have hlt := ih htail hhead (by simpa using hp)
          omega

end RecordedElements

section FirstPositions

variable {α : Type u} [DecidableEq α]

/-- A sublist of a list of distinct elements keeps their order. -/
theorem idxOf_le_idxOf_of_sublist
    {l l' : List α}
    (hsub : l'.Sublist l)
    (hl : l.Nodup)
    {x y : α}
    (hx : x ∈ l') (hy : y ∈ l')
    (h : l.idxOf x ≤ l.idxOf y) :
    l'.idxOf x ≤ l'.idxOf y := by
  induction hsub with
  | slnil =>
      simp at hx
  | @cons l₁ l₂ a hsub ih =>
      have hne : ∀ z ∈ l₁, a ≠ z := by
        rintro z hz rfl
        exact (List.nodup_cons.mp hl).1 (hsub.subset hz)
      rw [List.idxOf_cons_ne _ (hne x hx), List.idxOf_cons_ne _ (hne y hy)] at h
      exact ih (List.nodup_cons.mp hl).2 hx hy (by omega)
  | @cons_cons l₁ l₂ a hsub ih =>
      by_cases hxa : a = x
      · subst hxa
        rw [List.idxOf_cons_self]
        omega
      · by_cases hya : a = y
        · subst hya
          rw [List.idxOf_cons_self, List.idxOf_cons_ne _ hxa] at h
          omega
        · rw [List.idxOf_cons_ne _ hxa, List.idxOf_cons_ne _ hya] at h ⊢
          have hx' : x ∈ l₁ := (List.mem_cons.mp hx).resolve_left (Ne.symm hxa)
          have hy' : y ∈ l₁ := (List.mem_cons.mp hy).resolve_left (Ne.symm hya)
          have := ih (List.nodup_cons.mp hl).2 hx' hy' (by omega)
          omega

/-- The order of two elements of a sublist is that of the list. -/
theorem idxOf_lt_idxOf_iff_of_sublist
    {l l' : List α}
    (hsub : l'.Sublist l)
    (hl : l.Nodup)
    {x y : α}
    (hx : x ∈ l') (hy : y ∈ l') :
    l'.idxOf x < l'.idxOf y ↔ l.idxOf x < l.idxOf y := by
  constructor
  · intro h
    by_contra hge
    have hle := idxOf_le_idxOf_of_sublist hsub hl hy hx (by omega)
    omega
  · intro h
    have hle := idxOf_le_idxOf_of_sublist hsub hl hx hy (by omega)
    refine lt_of_le_of_ne hle ?_
    intro heq
    have hxy : x = y := (List.idxOf_inj hx).mp heq
    rw [hxy] at h
    omega

end FirstPositions

end PositionalErase
