import TribiosVfs.Lib.Prog

/-!
# Services

A service is a family of processes over one world. A process is idle, with the memory it keeps, or it runs a program that
returns the memory again; an idle process can start any program the service offers it. The processes interleave call by call.

`Service.safe` is the invariant rule: a property of each idle process that the others keep, and that every program offered
keeps, holds of every idle process in every state the service comes to.
-/

/-- One process: between programs it holds its memory, and a program returns the memory. -/
inductive Process (E : Type → Type) (ε M : Type) : Type 1 where
  | idle (m : M)
  | busy (p : Prog E ε M)

/-- The processes and the world they share. -/
structure Service (ι : Type) (E : Type → Type) (ε M σ : Type) : Type 1 where
  procs : ι → Process E ε M
  world : σ

namespace Service

variable {ι : Type} [DecidableEq ι] {E : Type → Type} {ε M σ : Type}

/-- One process in place of another. -/
def set (c : Service ι E ε M σ) (i : ι) (p : Process E ε M) : Service ι E ε M σ :=
  { c with procs := Function.update c.procs i p }

@[simp] theorem set_procs_self (c : Service ι E ε M σ) (i : ι) (p : Process E ε M) : (c.set i p).procs i = p :=
  Function.update_self ..

/-- The states a service comes to. `offers i m s p` says that process `i`, idle with memory `m`, may start `p` in world `s`. -/
inductive Reach (S : Semantics E ε σ) (offers : ι → M → σ → Prog E ε M → Prop) (c : Service ι E ε M σ) :
    Service ι E ε M σ → Prop where
  | refl : Reach S offers c c
  | start {c' m p} (i : ι) : Reach S offers c c' → c'.procs i = .idle m → offers i m c'.world p →
      Reach S offers c (c'.set i (.busy p))
  | call {c'} {γ : Type} {e : E γ} {k r w} (i : ι) : Reach S offers c c' → c'.procs i = .busy (.call e k) →
      S.step e c'.world r w → Reach S offers c { c'.set i (.busy (k r)) with world := w }
  | finish {c' m} (i : ι) : Reach S offers c c' → c'.procs i = .busy (.ret m) → Reach S offers c (c'.set i (.idle m))

/-- What the invariant rule keeps of a process. -/
def Holds (S : Semantics E ε σ) (C : Contract σ) (I : M → σ → Prop) (s : σ) : Process E ε M → Prop
  | .idle m => I m s
  | .busy p => p.Safe S C I s

/-- The invariant rule. -/
theorem safe {S : Semantics E ε σ} {offers : ι → M → σ → Prog E ε M → Prop} {C : ι → Contract σ} {I : ι → M → σ → Prop}
    (hG : ∀ i j, i ≠ j → ∀ s s', (C i).guar s s' → (C j).rely s s')
    (hI : ∀ i m s s', I i m s → (C i).rely s s' → I i m s')
    (hop : ∀ i m s p, I i m s → offers i m s p → p.Safe S (C i) (I i) s)
    {c c' : Service ι E ε M σ} (h : ∀ i, Holds S (C i) (I i) c.world (c.procs i)) (hr : Reach S offers c c') :
    ∀ i, Holds S (C i) (I i) c'.world (c'.procs i) := by
  induction hr with
  | refl => exact h
  | @start c₁ m p i _ hm ho ih =>
    intro j
    by_cases hij : j = i
    · subst hij
      have hj := ih j
      rw [hm] at hj
      simpa only [set, Function.update_self, Holds] using hop j m _ p hj ho
    · simpa only [set, Function.update_of_ne hij] using ih j
  | @call c₁ γ e k r w i _ hp hs ih =>
    have hi := ih i
    rw [hp] at hi
    obtain ⟨hg, hk⟩ := (hi c₁.world ((C i).rely_refl _)).2 r w hs
    intro j
    by_cases hij : j = i
    · subst hij
      simpa only [set, Function.update_self, Holds] using hk
    · have hj := ih j
      have hR := hG i j (Ne.symm hij) _ _ hg
      simp only [set, Function.update_of_ne hij]
      cases hpj : c₁.procs j with
      | idle m =>
        rw [hpj] at hj
        exact hI j m _ _ hj hR
      | busy p =>
        rw [hpj] at hj
        exact hj.rely hR
  | @finish c₁ m i _ hp ih =>
    intro j
    by_cases hij : j = i
    · subst hij
      have hj := ih j
      rw [hp] at hj
      simpa only [set, Function.update_self, Holds] using hj _ ((C j).rely_refl _)
    · simpa only [set, Function.update_of_ne hij] using ih j

/-- A process that has begun a program can run it to its end while the others rest. -/
theorem reach_run {S : Semantics E ε σ} {offers : ι → M → σ → Prog E ε M → Prop}
    {ok : {γ : Type} → E γ → σ → Bool} {exec : {γ : Type} → E γ → σ → Except ε γ × σ}
    (hexec : ∀ {γ : Type} (e : E γ) (s : σ), ok e s = true → S.step e s (exec e s).1 (exec e s).2)
    {c : Service ι E ε M σ} {i : ι} {p : Prog E ε M} {m : M} :
    ∀ {c' : Service ι E ε M σ} {s' : σ}, Reach S offers c c' → c'.procs i = .busy p →
      p.runIf ok exec c'.world = some (m, s') → Reach S offers c { c'.set i (.idle m) with world := s' } := by
  induction p with
  | ret a =>
    intro c' s' h hp hrun
    simp only [Prog.runIf, Option.some.injEq, Prod.mk.injEq] at hrun
    obtain ⟨rfl, rfl⟩ := hrun
    exact h.finish i hp
  | call e k ih =>
    intro c' s' h hp hrun
    simp only [Prog.runIf, Option.ite_none_right_eq_some] at hrun
    obtain ⟨hok, hrun⟩ := hrun
    have hstep := h.call i hp (hexec e c'.world hok)
    have hend := ih _ hstep (by simp [set]) hrun
    simpa only [set, Function.update_idem] using hend

/-- An idle process can run a program it is offered to its end while the others rest. -/
theorem reach_offered {S : Semantics E ε σ} {offers : ι → M → σ → Prog E ε M → Prop}
    {ok : {γ : Type} → E γ → σ → Bool} {exec : {γ : Type} → E γ → σ → Except ε γ × σ}
    (hexec : ∀ {γ : Type} (e : E γ) (s : σ), ok e s = true → S.step e s (exec e s).1 (exec e s).2)
    {c c' : Service ι E ε M σ} {i : ι} {p : Prog E ε M} {m m' : M} {s' : σ} (h : Reach S offers c c')
    (hm : c'.procs i = .idle m) (ho : offers i m c'.world p) (hrun : p.runIf ok exec c'.world = some (m', s')) :
    Reach S offers c { c'.set i (.idle m') with world := s' } := by
  have hend := reach_run hexec (h.start i hm ho) (Function.update_self i _ _) hrun
  simpa only [set, Function.update_idem] using hend

end Service
