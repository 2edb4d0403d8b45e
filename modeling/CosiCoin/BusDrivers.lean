import CosiCoin.LabelledRuns
import Mathlib.Data.List.Basic

/-!
# Drivers of a clocked device

A device changes at every clock edge, with an input that nobody controls.  A driver
works through a list of bus accesses: an access changes the device and gives the
values it reads, or nothing happens and the access is repeated.  Between two
accesses at least `slack` edges pass.

`Performs P as Q` says that the accesses `as` lead from the assertion `P` to `Q`,
where assertions speak of the device and the values read so far and are kept by
every edge.  It is built access by access (`Performs.cons`) or from longer parts
(`Performs.append`), and it is sound for every run of a driver that is called again
and again (`returned_of_reachable`).
-/

namespace BusDrivers

open LabelledRuns

universe u v w x y

/-- A clocked device on a bus; an access gives `none` as long as it has to be repeated. -/
structure Device (σ : Type u) (ι : Type v) (α : Type w) (β : Type x) where
  edge : σ → ι → σ
  access : α → σ → Option (σ × List β)

section Assertions

variable {σ : Type u}
variable {ι : Type v}
variable {α : Type w}
variable {β : Type x}

/-- Every edge keeps `P`. -/
def Device.Stable (d : Device σ ι α β) (P : σ → Prop) : Prop :=
  ∀ s i, P s → P (d.edge s i)

/-- `P` holds after any `n` edges. -/
def Device.After (d : Device σ ι α β) : Nat → (σ → Prop) → σ → Prop
  | 0, P, s => P s
  | n + 1, P, s => ∀ i, d.After n P (d.edge s i)

variable {d : Device σ ι α β}

theorem Device.After.mono
    {P Q : σ → Prop}
    (hPQ : ∀ s, P s → Q s)
    {n : Nat} :
    ∀ {s : σ}, d.After n P s → d.After n Q s := by
  induction n with
  | zero =>
      intro s h
      exact hPQ s h
  | succ n ih =>
      intro s h i
      exact ih (h i)

theorem Device.Stable.after
    {P : σ → Prop}
    (hP : d.Stable P)
    (n : Nat) :
    ∀ {s : σ}, P s → d.After n P s := by
  induction n with
  | zero =>
      intro s h
      exact h
  | succ n ih =>
      intro s h i
      exact ih (hP s i h)

theorem Device.After.and
    {P Q : σ → Prop}
    {n : Nat} :
    ∀ {s : σ}, d.After n P s → d.After n Q s → d.After n (fun s => P s ∧ Q s) s := by
  induction n with
  | zero =>
      intro s hP hQ
      exact ⟨hP, hQ⟩
  | succ n ih =>
      intro s hP hQ i
      exact ih (hP i) (hQ i)

theorem Device.Stable.and
    {P Q : σ → Prop}
    (hP : d.Stable P)
    (hQ : d.Stable Q) :
    d.Stable fun s => P s ∧ Q s :=
  fun s i h => ⟨hP s i h.1, hQ s i h.2⟩

/-- What the next edge establishes and every edge keeps. -/
theorem Device.Stable.after_succ
    {P : σ → Prop}
    (hP : d.Stable P)
    (n : Nat)
    {s : σ}
    (h : ∀ i, P (d.edge s i)) :
    d.After (n + 1) P s :=
  fun i => hP.after n (h i)

/-- An edge that happens counts. -/
theorem Device.After.edge
    {P : σ → Prop}
    (hP : d.Stable P)
    {n : Nat} {s : σ}
    (h : d.After n P s)
    (i : ι) :
    d.After (n - 1) P (d.edge s i) := by
  cases n with
  | zero => exact hP s i h
  | succ n => exact h i

/-- What does not depend on the device holds already. -/
theorem Device.After.const
    [Nonempty ι]
    {q : Prop} {n : Nat} :
    ∀ {s : σ}, d.After n (fun _ => q) s → q := by
  induction n with
  | zero =>
      intro s h
      exact h
  | succ n ih =>
      intro s h
      exact ih (h (Classical.arbitrary ι))

/-- The accesses lead from one assertion to another. -/
inductive Performs (d : Device σ ι α β) (slack : Nat) :
    (σ → List β → Prop) → List α → (σ → List β → Prop) → Prop
  | nil
      {P : σ → List β → Prop}
      (hstable : ∀ vs, d.Stable fun s => P s vs) :
      Performs d slack P [] P
  | cons
      {P P' Q : σ → List β → Prop} {a : α} {as : List α}
      (hstable : ∀ vs, d.Stable fun s => P s vs)
      (haccess : ∀ s vs s' ws, P s vs → d.access a s = some (s', ws) →
        d.After slack (fun s => P' s (vs ++ ws)) s')
      (h : Performs d slack P' as Q) :
      Performs d slack P (a :: as) Q

variable {slack : Nat}

theorem Performs.stable
    {P Q : σ → List β → Prop} {as : List α}
    (h : Performs d slack P as Q) :
    ∀ vs, d.Stable fun s => P s vs := by
  cases h with
  | nil hstable => exact hstable
  | cons hstable _ _ => exact hstable

theorem Performs.append
    {P Q R : σ → List β → Prop} {as bs : List α}
    (h : Performs d slack P as Q)
    (h' : Performs d slack Q bs R) :
    Performs d slack P (as ++ bs) R := by
  induction h with
  | nil _ => exact h'
  | cons hstable haccess _ ih => exact .cons hstable haccess (ih h')

/-- A single access. -/
theorem Performs.single
    {P Q : σ → List β → Prop} {a : α}
    (hP : ∀ vs, d.Stable fun s => P s vs)
    (hQ : ∀ vs, d.Stable fun s => Q s vs)
    (haccess : ∀ s vs s' ws, P s vs → d.access a s = some (s', ws) →
      d.After slack (fun s => Q s (vs ++ ws)) s') :
    Performs d slack P [a] Q :=
  .cons hP haccess (.nil hQ)

end Assertions

section Calls

variable {σ : Type u}
variable {ι : Type v}
variable {α : Type w}
variable {β : Type x}
variable {κ : Type y}

/-- A driver: the call it serves with what is left to do and what has been read, the
edges since the last access, and the calls that have returned. -/
structure Driving (σ : Type u) (α : Type w) (β : Type x) (κ : Type y) where
  device : σ
  cycles : Nat := 0
  call : Option κ := none
  rest : List α := []
  values : List β := []
  returned : List (κ × List β) := []

inductive Action (ι : Type v) (κ : Type y) where
  | edge (i : ι)
  | call (k : κ)
  | access
  | again
  | ret

/-- The steps of a driver whose calls are the lists of accesses `program`. -/
inductive Step (d : Device σ ι α β) (slack : Nat) (program : κ → List α) :
    Driving σ α β κ → Action ι κ → Driving σ α β κ → Prop
  | edge
      (c : Driving σ α β κ) (i : ι) :
      Step d slack program c (.edge i)
        { c with device := d.edge c.device i, cycles := c.cycles + 1 }
  | call
      {c : Driving σ α β κ} (k : κ)
      (hidle : c.call = none)
      (hslack : slack ≤ c.cycles) :
      Step d slack program c (.call k)
        { c with call := some k, rest := program k, values := [] }
  | access
      {c : Driving σ α β κ} {a : α} {as : List α} {s : σ} {vs : List β}
      (hrest : c.rest = a :: as)
      (hslack : slack ≤ c.cycles)
      (h : d.access a c.device = some (s, vs)) :
      Step d slack program c .access
        { c with device := s, cycles := 0, rest := as, values := c.values ++ vs }
  | again
      {c : Driving σ α β κ} {a : α} {as : List α}
      (hrest : c.rest = a :: as)
      (hslack : slack ≤ c.cycles)
      (h : d.access a c.device = none) :
      Step d slack program c .again { c with cycles := 0 }
  | ret
      {c : Driving σ α β κ} {k : κ}
      (hcall : c.call = some k)
      (hrest : c.rest = []) :
      Step d slack program c .ret
        { c with call := none, returned := c.returned ++ [(k, c.values)] }

/-- A driver that has not been called yet. -/
def Fresh (Ready : σ → Prop) (c : Driving σ α β κ) : Prop :=
  Ready c.device ∧ c.call = none ∧ c.rest = [] ∧ c.returned = []

variable {d : Device σ ι α β}
variable {slack : Nat}
variable {program : κ → List α}
variable {Ready : σ → Prop}
variable {Post : κ → List β → Prop}

/-- A driver between its calls, or on its way to what its call promises. -/
inductive OnCourse (d : Device σ ι α β) (slack : Nat) (Ready : σ → Prop)
    (Post : κ → List β → Prop) (c : Driving σ α β κ) : Prop
  | idle
      (hcall : c.call = none)
      (hrest : c.rest = [])
      (hready : d.After (slack - c.cycles) Ready c.device)
  | busy
      {k : κ} {P : σ → List β → Prop}
      (hcall : c.call = some k)
      (hperforms : Performs d slack P c.rest fun s vs => Ready s ∧ Post k vs)
      (hafter : d.After (slack - c.cycles) (fun s => P s c.values) c.device)

/-- Every step keeps a driver on its course and every call that returns keeps its promise. -/
theorem onCourse_step
    [Nonempty ι]
    (hready : d.Stable Ready)
    (hprogram : ∀ k, Performs d slack (fun s vs => Ready s ∧ vs = []) (program k)
      fun s vs => Ready s ∧ Post k vs)
    {c c' : Driving σ α β κ} {act : Action ι κ}
    (h : OnCourse d slack Ready Post c ∧ ∀ r ∈ c.returned, Post r.1 r.2)
    (hstep : Step d slack program c act c') :
    OnCourse d slack Ready Post c' ∧ ∀ r ∈ c'.returned, Post r.1 r.2 := by
  obtain ⟨hc, hreturned⟩ := h
  cases hstep with
  | edge i =>
      refine ⟨?_, hreturned⟩
      cases hc with
      | idle hcall hrest hafter =>
          exact .idle hcall hrest (hafter.edge hready i)
      | busy hcall hperforms hafter =>
          exact .busy hcall hperforms (hafter.edge (hperforms.stable _) i)
  | call k hidle hslack =>
      refine ⟨?_, hreturned⟩
      cases hc with
      | idle _ _ hafter =>
          refine .busy rfl (hprogram k) ?_
          exact hafter.mono fun s hs => ⟨hs, rfl⟩
      | busy hcall _ _ =>
          rw [hidle] at hcall
          cases hcall
  | @access a as s vs hrest hslack haccess =>
      refine ⟨?_, hreturned⟩
      cases hc with
      | idle _ hnil _ =>
          rw [hrest] at hnil
          cases hnil
      | busy hcall hperforms hafter =>
          rw [hrest] at hperforms
          rw [Nat.sub_eq_zero_of_le hslack] at hafter
          cases hperforms with
          | cons _ hnext hperforms =>
              exact .busy hcall hperforms (hnext _ _ _ _ hafter haccess)
  | again hrest hslack _ =>
      refine ⟨?_, hreturned⟩
      cases hc with
      | idle _ hnil _ =>
          rw [hrest] at hnil
          cases hnil
      | busy hcall hperforms hafter =>
          rw [Nat.sub_eq_zero_of_le hslack] at hafter
          exact .busy hcall hperforms (Device.Stable.after (hperforms.stable _) _ hafter)
  | @ret k hcall hrest =>
      cases hc with
      | idle hnone _ _ =>
          rw [hcall] at hnone
          cases hnone
      | busy hcall' hperforms hafter =>
          rw [hcall] at hcall'
          obtain rfl := Option.some.inj hcall'
          rw [hrest] at hperforms
          cases hperforms with
          | nil _ =>
              refine ⟨.idle rfl hrest (hafter.mono fun s hs => hs.1), ?_⟩
              have hpost : Post k c.values := (hafter.mono fun s hs => hs.2).const
              intro r hr
              rcases List.mem_append.mp hr with hold | hnew
              · exact hreturned r hold
              · obtain rfl := List.mem_singleton.mp hnew
                exact hpost

/-- Whatever the order of edges, accesses and calls, a call that returns keeps its promise. -/
theorem returned_of_reachable
    [Nonempty ι]
    (hready : d.Stable Ready)
    (hprogram : ∀ k, Performs d slack (fun s vs => Ready s ∧ vs = []) (program k)
      fun s vs => Ready s ∧ Post k vs)
    {c : Driving σ α β κ}
    (h : Reachable (Fresh Ready) (Step d slack program) c) :
    ∀ r ∈ c.returned, Post r.1 r.2 := by
  refine (h.invariant (fun c hc => ?_) fun c act c' hc hstep =>
    onCourse_step hready hprogram hc hstep).2
  obtain ⟨hc, hcall, hrest, hreturned⟩ := hc
  refine ⟨.idle hcall hrest (Device.Stable.after hready _ hc), ?_⟩
  intro r hr
  rw [hreturned] at hr
  cases hr

end Calls

end BusDrivers
