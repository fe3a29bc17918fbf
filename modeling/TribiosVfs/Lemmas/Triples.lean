import TribiosVfs.Lemmas.Programs

/-!
# Triples for computations

`Ensures` is the rule of a computation among others: from a state that meets the precondition, every call keeps the contract, and
what is returned meets the postcondition of a success or of an error. Assertions are steady: the others keep them, and they imply
what must hold wherever the process can be stopped.
-/

namespace TribiosVfs

/-- An assertion that the others keep, and that implies the contract's invariant. -/
structure Steady (C : Contract World) (P : World → Prop) : Prop where
  rely : ∀ w w', P w → C.rely w w' → P w'
  inv : ∀ w, P w → C.inv w

/-- What a computation that ends has reached. -/
def Outcome {ε α : Type} (Q : α → World → Prop) (X : ε → World → Prop) : Except ε α → World → Prop
  | .ok a, w => Q a w
  | .error x, w => X x w

def Ensures {ε α : Type} (S : Semantics Call Errno World) (C : Contract World) (P : World → Prop) (p : Fallible ε α)
    (Q : α → World → Prop) (X : ε → World → Prop) : Prop := ∀ w, P w → Prog.Safe S C (Outcome Q X) p w

section triples

variable {ε ε' α β : Type} {S : Semantics Call Errno World} {C : Contract World} {P P' : World → Prop}
  {Q Q' : α → World → Prop} {X X' : ε → World → Prop}

theorem Ensures.mono {p : Fallible ε α} (h : Ensures S C P p Q X) (hP : ∀ w, P' w → P w) (hQ : ∀ a w, Q a w → Q' a w)
    (hX : ∀ x w, X x w → X' x w) : Ensures S C P' p Q' X' := by
  intro w hw
  refine (h w (hP w hw)).mono (fun r w' hr => ?_)
  cases r with
  | ok a => exact hQ a w' hr
  | error x => exact hX x w' hr

theorem ensures_ret {r : Except ε α} (hP : Steady C P) (h : ∀ w, P w → Outcome Q X r w) :
    Ensures S C P (Prog.ret r : Fallible ε α) Q X := fun w hw w' hr => h w' (hP.rely w w' hw hr)

theorem ensures_pure {a : α} (hP : Steady C P) (h : ∀ w, P w → Q a w) : Ensures S C P (pure a : Fallible ε α) Q X :=
  ensures_ret hP h

theorem ensures_fail {x : ε} (hP : Steady C P) (h : ∀ w, P w → X x w) :
    Ensures S C P (Fallible.fail x : Fallible ε α) Q X := ensures_ret hP h

/-- The rule of sequencing. -/
theorem ensures_bind {p : Fallible ε α} {f : α → Fallible ε β} {R : α → World → Prop} {Q : β → World → Prop}
    (hp : Ensures S C P p R X) (hX : ∀ x, Steady C (X x)) (hf : ∀ a, Ensures S C (R a) (f a) Q X) :
    Ensures S C P (p >>= f) Q X := by
  intro w hw
  refine Prog.Safe.bind (hp w hw) (fun r w' hr => ?_)
  cases r with
  | ok a => exact hf a w' hr
  | error x => exact fun w'' hrely => (hX x).rely w' w'' hr hrely

/-- A computation and what a failure of it is answered with. -/
theorem ensures_orElseDo {p : Fallible ε α} {f : ε → Fallible ε' α} {X' : ε' → World → Prop} (hp : Ensures S C P p Q X)
    (hQ : ∀ a, Steady C (Q a)) (hf : ∀ x, Ensures S C (X x) (f x) Q X') : Ensures S C P (p.orElseDo f) Q X' := by
  intro w hw
  refine Prog.Safe.bind (hp w hw) (fun r w' hr => ?_)
  cases r with
  | ok a => exact fun w'' hrely => (hQ a).rely w' w'' hr hrely
  | error x => exact hf x w' hr

theorem ensures_ignore {p : Fallible ε α} {R : World → Prop} {X' : ε' → World → Prop}
    (hp : Ensures S C P p (fun _ => R) (fun _ => R)) (hR : Steady C R) :
    Ensures S C P (p.ignore : Fallible ε' Unit) (fun _ => R) X' := by
  intro w hw
  refine Prog.Safe.bind (hp w hw) (fun r w' hr => ?_)
  have hr' : R w' := by cases r <;> exact hr
  exact fun w'' hrely => hR.rely w' w'' hr' hrely

theorem ensures_refuse {c : Prop} [Decidable c] {x : ε} {R : World → Prop} (hP : Steady C P) (h : ∀ w, P w → ¬c → R w)
    (hx : ∀ w, P w → c → X x w) : Ensures S C P (Fallible.refuse c x) (fun _ => R) X := by
  unfold Fallible.refuse
  split
  · rename_i hc
    exact ensures_fail hP (fun w hw => hx w hw hc)
  · rename_i hc
    exact ensures_pure hP (fun w hw => h w hw hc)

theorem ensures_ite {c : Prop} [Decidable c] {p q : Fallible ε α} (hp : c → Ensures S C P p Q X)
    (hq : ¬c → Ensures S C P q Q X) : Ensures S C P (if c then p else q) Q X := by
  split
  · exact hp ‹_›
  · exact hq ‹_›

theorem ensures_onlyIf {c : Prop} [Decidable c] {p : Fallible ε Unit} {R : World → Prop} (hP : Steady C P)
    (hp : c → Ensures S C P p (fun _ => R) X) (h : ∀ w, P w → ¬c → R w) :
    Ensures S C P (Fallible.onlyIf c p) (fun _ => R) X :=
  ensures_ite hp (fun hc => ensures_pure hP (fun w hw => h w hw hc))

theorem ensures_forEach {f : α → Fallible ε Unit} {as : List α} (hP : Steady C P) (hX : ∀ x, Steady C (X x))
    (hf : ∀ a ∈ as, Ensures S C P (f a) (fun _ => P) X) : Ensures S C P (Fallible.forEach f as) (fun _ => P) X := by
  induction as with
  | nil => exact ensures_pure hP (fun _ hw => hw)
  | cons a as ih =>
    exact ensures_bind (hf a List.mem_cons_self) hX (fun _ => ih (fun b hb => hf b (List.mem_cons_of_mem _ hb)))

/-- One call. -/
theorem ensures_call {c : Call α} {X : Errno → World → Prop} (hP : Steady C P) (hQ : ∀ a, Steady C (Q a))
    (hX : ∀ x, Steady C (X x)) (h : ∀ w r w', P w → S.step c w r w' → C.guar w w' ∧ Outcome Q X r w') :
    Ensures S C P (Io.call c) Q X := by
  intro w hw w' hr
  have hw' := hP.rely w w' hw hr
  refine ⟨hP.inv w' hw', fun r w'' hstep => ?_⟩
  obtain ⟨hg, ho⟩ := h w' r w'' hw' hstep
  refine ⟨hg, fun w₃ hr₃ => ?_⟩
  cases r with
  | ok a => exact (hQ a).rely w'' w₃ ho hr₃
  | error x => exact (hX x).rely w'' w₃ ho hr₃

/-- A call whose answer is always taken. -/
theorem ensures_answer {c : Call β} {f : Except Errno β → α} (hP : Steady C P) (hQ : ∀ a, Steady C (Q a))
    (h : ∀ w r w', P w → S.step c w r w' → C.guar w w' ∧ Q (f r) w') :
    Ensures S C P (Prog.call c (fun r => Prog.ret (.ok (f r))) : Fallible ε α) Q X := by
  intro w hw w' hr
  have hw' := hP.rely w w' hw hr
  refine ⟨hP.inv w' hw', fun r w'' hstep => ?_⟩
  obtain ⟨hg, ho⟩ := h w' r w'' hw' hstep
  exact ⟨hg, fun w₃ hr₃ => (hQ (f r)).rely w'' w₃ ho hr₃⟩

/-- A computation all of whose calls keep an assertion. -/
theorem ensures_kept {good : {γ : Type} → Call γ → Prop} {p : Fallible ε α} (h : Calls good p) (hP : Steady C P)
    (hcall : ∀ {γ : Type} (c : Call γ) w r w', good c → P w → S.step c w r w' → C.guar w w' ∧ P w') :
    Ensures S C P p (fun _ => P) (fun _ => P) := by
  intro w hw
  refine Prog.Safe.mono (Prog.Only.safe h hcall hP.rely hP.inv hw) (fun r w' hr => ?_)
  cases r <;> exact hr.2

end triples

end TribiosVfs
