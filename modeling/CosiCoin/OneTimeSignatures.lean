import Mathlib.Logic.Basic

/-!
# Signatures that reveal one of several secrets at every position

A key has a secret for every position and every choice, the public key is its
image under `h`.  Signing reveals, at each position, the secret of the choice the
message makes there.

* A message is `Covered` by signed ones if at each position one of them makes its
  choice.  Exactly then a signature of it can be put together from the revealed
  secrets (`Mixed.covered`, `Covered.exists_mixed`), and it verifies
  (`Mixed.verifies`).
* Any other signature that verifies `Inverts` the public key: it holds a preimage
  of an entry that no signed message has revealed (`Verifies.covered_or_inverts`).
-/

namespace OneTimeSignatures

universe u v w x

section Signatures

variable {ι : Type u}
variable {β : Type v}
variable {S : Type w}
variable {P : Type x}

/-- At each position the revealed string is a preimage of the chosen public entry. -/
def Verifies
    (h : S → P)
    (pub : ι → β → P)
    (choice : ι → β)
    (sig : ι → S) : Prop :=
  ∀ i, h (sig i) = pub i (choice i)

/-- Each choice is also made by one of the signed messages. -/
def Covered
    (signed : List (ι → β))
    (choice : ι → β) : Prop :=
  ∀ i, ∃ c ∈ signed, c i = choice i

/-- A signature put together from those of the signed messages. -/
def Mixed
    (signed : List ((ι → β) × (ι → S)))
    (choice : ι → β)
    (sig : ι → S) : Prop :=
  ∀ i, ∃ p ∈ signed, p.1 i = choice i ∧ p.2 i = sig i

/-- A preimage of a public entry that no signed message has chosen. -/
def Inverts
    (h : S → P)
    (pub : ι → β → P)
    (signed : List (ι → β))
    (choice : ι → β)
    (sig : ι → S) : Prop :=
  ∃ i, (∀ c ∈ signed, c i ≠ choice i) ∧ h (sig i) = pub i (choice i)

variable {h : S → P}
variable {pub : ι → β → P}
variable {choice : ι → β}
variable {sig : ι → S}

theorem Mixed.covered
    {signed : List ((ι → β) × (ι → S))}
    (hmix : Mixed signed choice sig) :
    Covered (signed.map Prod.fst) choice := by
  intro i
  obtain ⟨p, hp, hchoice, _⟩ := hmix i
  exact ⟨p.1, List.mem_map_of_mem hp, hchoice⟩

/-- What is put together from valid signatures is valid. -/
theorem Mixed.verifies
    {signed : List ((ι → β) × (ι → S))}
    (hmix : Mixed signed choice sig)
    (hsigned : ∀ p ∈ signed, Verifies h pub p.1 p.2) :
    Verifies h pub choice sig := by
  intro i
  obtain ⟨p, hp, hchoice, hsig⟩ := hmix i
  rw [← hsig, ← hchoice]
  exact hsigned p hp i

/-- A covered message can be signed from the revealed secrets. -/
theorem Covered.exists_mixed
    {signed : List ((ι → β) × (ι → S))}
    (hcov : Covered (signed.map Prod.fst) choice) :
    ∃ sig, Mixed signed choice sig := by
  have hpos : ∀ i, ∃ s, ∃ p ∈ signed, p.1 i = choice i ∧ p.2 i = s := by
    intro i
    obtain ⟨c, hc, hchoice⟩ := hcov i
    obtain ⟨p, hp, rfl⟩ := List.mem_map.mp hc
    exact ⟨p.2 i, p, hp, hchoice, rfl⟩
  exact ⟨fun i => (hpos i).choose, fun i => (hpos i).choose_spec⟩

/-- A valid signature of a message that is not covered inverts the public key. -/
theorem Verifies.covered_or_inverts
    (hver : Verifies h pub choice sig)
    (signed : List (ι → β)) :
    Covered signed choice ∨ Inverts h pub signed choice sig := by
  by_cases hcov : Covered signed choice
  · exact .inl hcov
  · obtain ⟨i, hi⟩ := not_forall.mp hcov
    refine .inr ⟨i, ?_, hver i⟩
    intro c hc heq
    exact hi ⟨c, hc, heq⟩

/-- One signature covers only messages that make the same choices. -/
theorem Covered.eq_of_unique
    {signed : List (ι → β)} {c : ι → β}
    (hcov : Covered signed choice)
    (hunique : ∀ c' ∈ signed, c' = c) :
    c = choice := by
  funext i
  obtain ⟨c', hc', hchoice⟩ := hcov i
  rw [← hunique c' hc']
  exact hchoice

theorem Covered.exists_mem
    {signed : List (ι → β)}
    (hcov : Covered signed choice)
    (i : ι) :
    ∃ c, c ∈ signed := by
  obtain ⟨c, hc, _⟩ := hcov i
  exact ⟨c, hc⟩

end Signatures

end OneTimeSignatures
