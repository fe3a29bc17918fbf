import TribiosVfs.Lemmas.Triples
import TribiosVfs.Lemmas.Runs

/-!
# Computations that run alone, by their ends

`Ends` is the rule of a computation that runs alone with no call failing: from the world it starts in, what holds when it has
succeeded and what holds when it has failed.
-/

namespace TribiosVfs

/-- What holds when a computation has succeeded, and what when it has failed. -/
def Ends {ε α : Type} (p : Fallible ε α) (w : World) (Q : α → World → Prop) (X : ε → World → Prop) : Prop :=
  Prog.Alone exec (Outcome Q X) p w

/-- The same of a computation of the engine. -/
def EngineM.Ends {α : Type} (m : EngineM α) (e : Engine) (w : World) (Q : α → Engine → World → Prop)
    (X : Errno → Engine → World → Prop) : Prop :=
  Prog.Alone exec (fun r => Outcome (fun a => Q a r.2) (fun x => X x r.2) r.1) (m e) w

section rules

variable {ε ε' α β : Type} {w : World} {Q Q' : α → World → Prop} {X X' : ε → World → Prop}

theorem Ends.mono {p : Fallible ε α} (h : Ends p w Q X) (hQ : ∀ a w, Q a w → Q' a w) (hX : ∀ x w, X x w → X' x w) :
    Ends p w Q' X' := by
  refine Prog.Alone.mono h (fun r w' hr => ?_)
  cases r with
  | ok a => exact hQ a w' hr
  | error x => exact hX x w' hr

theorem ends_of_run {p : Fallible ε α} {r : Except ε α} {w' : World} (h : p.run exec w = (r, w')) (ho : Outcome Q X r w') :
    Ends p w Q X := by
  unfold Ends Prog.Alone
  rw [h]
  exact ho

/-- A computation that never fails has an answer. -/
theorem Ends.run {p : Fallible ε α} (h : Ends p w Q (fun _ _ => False)) : ∃ a w', p.run exec w = (.ok a, w') ∧ Q a w' := by
  unfold Ends Prog.Alone at h
  generalize hr : p.run exec w = r at h
  obtain ⟨r, w'⟩ := r
  cases r with
  | ok a => exact ⟨a, w', rfl, h⟩
  | error x => exact h.elim

theorem ends_pure {a : α} (h : Q a w) : Ends (pure a : Fallible ε α) w Q X := h

theorem ends_fail {x : ε} (h : X x w) : Ends (Fallible.fail x : Fallible ε α) w Q X := h

theorem ends_bind {p : Fallible ε β} {f : β → Fallible ε α} {R : β → World → Prop} (hp : Ends p w R X)
    (hf : ∀ b w', R b w' → Ends (f b) w' Q X) : Ends (p >>= f) w Q X := by
  refine Prog.Alone.bind hp (fun r w' hr => ?_)
  cases r with
  | ok b => exact hf b w' hr
  | error x => exact hr

theorem ends_orElseDo {p : Fallible ε α} {f : ε → Fallible ε' α} {X' : ε' → World → Prop} (hp : Ends p w Q X)
    (hf : ∀ x w', X x w' → Ends (f x) w' Q X') : Ends (p.orElseDo f) w Q X' := by
  refine Prog.Alone.bind hp (fun r w' hr => ?_)
  cases r with
  | ok a => exact hr
  | error x => exact hf x w' hr

theorem ends_orFail {p : Fallible ε α} {y : ε'} {X' : ε' → World → Prop} (hp : Ends p w Q X)
    (hX : ∀ x w', X x w' → X' y w') : Ends (p.orFail y) w Q X' :=
  ends_orElseDo hp (fun x w' h => ends_fail (hX x w' h))

theorem ends_ignore {p : Fallible ε α} {R : World → Prop} {X' : ε' → World → Prop}
    (hp : Ends p w (fun _ => R) (fun _ => R)) : Ends (p.ignore : Fallible ε' Unit) w (fun _ => R) X' := by
  refine Prog.Alone.bind hp (fun r w' hr => ?_)
  cases r <;> exact hr

theorem ends_refuse {c : Prop} [Decidable c] {x : ε} {R : World → Prop} (h : ¬c → R w) (hX : c → X x w) :
    Ends (Fallible.refuse c x) w (fun _ => R) X := by
  unfold Fallible.refuse
  split
  · rename_i hc
    exact ends_fail (hX hc)
  · rename_i hc
    exact ends_pure (h hc)

theorem ends_onlyIf {c : Prop} [Decidable c] {p : Fallible ε Unit} {R : World → Prop} (hp : c → Ends p w (fun _ => R) X)
    (h : ¬c → R w) : Ends (Fallible.onlyIf c p) w (fun _ => R) X := by
  unfold Fallible.onlyIf
  split
  · rename_i hc
    exact hp hc
  · rename_i hc
    exact ends_pure (h hc)

theorem ends_call {c : Call α} {X : Errno → World → Prop} (h : Outcome Q X (exec c w).1 (exec c w).2) :
    Ends (Io.call c) w Q X := h

/-- A call of the host file system. -/
theorem ends_host (f : Host → Except Errno α × Host) {c : Call α} {X : Errno → World → Prop} {r : Except Errno α} {h' : Host}
    (hc : exec c w = w.onHost f) (hf : f w.host = (r, h')) (ho : Outcome Q X r { w with host := h' }) :
    Ends (Io.call c) w Q X := by
  refine ends_call ?_
  rw [hc, World.onHost, hf]
  exact ho

end rules

namespace EngineM

variable {α β : Type} {e : Engine} {w : World} {Q Q' : α → Engine → World → Prop} {X X' : Errno → Engine → World → Prop}

theorem Ends.mono {m : EngineM α} (h : m.Ends e w Q X) (hQ : ∀ a e w, Q a e w → Q' a e w)
    (hX : ∀ x e w, X x e w → X' x e w) : m.Ends e w Q' X' := by
  refine Prog.Alone.mono h (fun r w' hr => ?_)
  obtain ⟨r, e'⟩ := r
  cases r with
  | ok a => exact hQ a e' w' hr
  | error x => exact hX x e' w' hr

theorem ends_pure {a : α} (h : Q a e w) : (pure a : EngineM α).Ends e w Q X := h

theorem ends_fail {x : Errno} (h : X x e w) : (fail x : EngineM α).Ends e w Q X := h

theorem ends_bind {m : EngineM β} {f : β → EngineM α} {R : β → Engine → World → Prop} (hm : m.Ends e w R X)
    (hf : ∀ b e' w', R b e' w' → (f b).Ends e' w' Q X) : (m >>= f).Ends e w Q X := by
  refine Prog.Alone.bind hm (fun r w' hr => ?_)
  obtain ⟨r, e'⟩ := r
  cases r with
  | ok b => exact hf b e' w' hr
  | error x => exact hr

theorem ends_reads {f : Engine → Io α} (h : TribiosVfs.Ends (f e) w (fun a => Q a e) (fun x => X x e)) :
    (reads f).Ends e w Q X :=
  Prog.Alone.bind h (fun r w' hr => by
    cases r <;> exact hr)

theorem ends_modify {f : Engine → Engine} {R : Engine → World → Prop} (h : R (f e) w) : (modify f).Ends e w (fun _ => R) X := h

theorem ends_refuse {c : Prop} [Decidable c] {x : Errno} {R : Engine → World → Prop} (h : ¬c → R e w) (hX : c → X x e w) :
    (refuse c x).Ends e w (fun _ => R) X :=
  ends_reads (TribiosVfs.ends_refuse h hX)

theorem ends_onlyIf {c : Prop} [Decidable c] {m : EngineM Unit} {R : Engine → World → Prop}
    (hm : c → m.Ends e w (fun _ => R) X) (h : ¬c → R e w) : (onlyIf c m).Ends e w (fun _ => R) X := by
  unfold onlyIf
  split
  · rename_i hc
    exact hm hc
  · rename_i hc
    exact ends_pure (h hc)

/-- A computation that depends on the memory it starts from. -/
theorem ends_here {m : Engine → EngineM α} (h : (m e).Ends e w Q X) : EngineM.Ends (fun e => m e e) e w Q X := h

/-- A computation that is another one in the memory it starts from. -/
theorem ends_of_eq {m m' : EngineM α} (h : m e = m' e) (hm : m'.Ends e w Q X) : m.Ends e w Q X := by
  unfold Ends
  rw [h]
  exact hm

theorem ends_attempt {m : EngineM α} {R : Except Errno α → Engine → World → Prop}
    (hm : m.Ends e w (fun a => R (.ok a)) (fun x => R (.error x))) {X : Errno → Engine → World → Prop} :
    (attempt m).Ends e w R X := by
  refine Prog.Alone.bind hm (fun r w' hr => ?_)
  obtain ⟨r, e'⟩ := r
  cases r <;> exact hr

end EngineM

end TribiosVfs
