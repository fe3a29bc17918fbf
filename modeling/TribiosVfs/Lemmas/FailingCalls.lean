import TribiosVfs.Lemmas.Programs
import TribiosVfs.Lemmas.HostRuns

/-!
# Triples for runs with failing calls

`Endures` is the rule of a computation that runs alone while a number of its calls may fail. An assertion is told how many failures
are left, so that it can say what still holds when there are none. The calls whose failure has no effect are treated; the others
are those of the engine's copies and of its journal.
-/

namespace TribiosVfs

/-- How the calls fail that may. -/
def failing (F : Faults) : Semantics Call Errno World where
  step c w r w' := c.internal = false ∧ F.may c w ∧ Fault c w r w'

/-- An assertion about the failures that are left and the world. -/
abbrev Assertion := Nat → World → Prop

/-- What a computation that ends has reached. -/
def Ending {ε α : Type} (Q : α → Assertion) (X : ε → Assertion) (n : Nat) : Except ε α → World → Prop
  | .ok a, w => Q a n w
  | .error x, w => X x n w

def Endures {ε α : Type} (F : Faults) (A : Assertion) (p : Fallible ε α) (Q : α → Assertion) (X : ε → Assertion) : Prop :=
  ∀ n w, A n w → Prog.Within exec (failing F) (Ending Q X) p n w

section endures

variable {ε ε' α β : Type} {F : Faults} {A A' R : Assertion} {Q Q' : α → Assertion} {X X' : ε → Assertion}

theorem Endures.mono {p : Fallible ε α} (h : Endures F A p Q X) (hA : ∀ n w, A' n w → A n w)
    (hQ : ∀ a n w, Q a n w → Q' a n w) (hX : ∀ x n w, X x n w → X' x n w) : Endures F A' p Q' X' := by
  intro n w hw
  refine (h n w (hA n w hw)).mono (fun n r w hr => ?_)
  cases r with
  | ok a => exact hQ a n w hr
  | error x => exact hX x n w hr

theorem endures_pure {a : α} (h : ∀ n w, A n w → Q a n w) : Endures F A (pure a : Fallible ε α) Q X := h

theorem endures_fail {x : ε} (h : ∀ n w, A n w → X x n w) : Endures F A (Fallible.fail x : Fallible ε α) Q X := h

/-- The rule of sequencing. -/
theorem endures_bind {p : Fallible ε α} {f : α → Fallible ε β} {Q : β → Assertion} {P : α → Assertion}
    (hp : Endures F A p P X) (hf : ∀ a, Endures F (P a) (f a) Q X) : Endures F A (p >>= f) Q X := by
  intro n w hw
  refine (hp n w hw).bind (fun n r w hr => ?_)
  cases r with
  | ok a => exact hf a n w hr
  | error x => exact hr

/-- A computation and what a failure of it is answered with. -/
theorem endures_orElseDo {p : Fallible ε α} {f : ε → Fallible ε' α} {X' : ε' → Assertion} (hp : Endures F A p Q X)
    (hf : ∀ x, Endures F (X x) (f x) Q X') : Endures F A (p.orElseDo f) Q X' := by
  intro n w hw
  refine (hp n w hw).bind (fun n r w hr => ?_)
  cases r with
  | ok a => exact hr
  | error x => exact hf x n w hr

theorem endures_orFail {p : Fallible ε α} {y : ε'} {X' : ε' → Assertion} (hp : Endures F A p Q X)
    (hX : ∀ x n w, X x n w → X' y n w) : Endures F A (p.orFail y) Q X' :=
  endures_orElseDo hp (fun x => endures_fail (hX x))

/-- A computation whose failure nobody looks at. -/
theorem endures_ignore {p : Fallible ε α} {X' : ε' → Assertion} (hp : Endures F A p (fun _ => R) (fun _ => R)) :
    Endures F A (p.ignore : Fallible ε' Unit) (fun _ => R) X' := by
  intro n w hw
  refine (hp n w hw).bind (fun n r w hr => ?_)
  cases r <;> exact hr

/-- A fact that the assertion tells. -/
theorem endures_of_fact {φ : Prop} {p : Fallible ε α} (h : ∀ n w, A n w → φ) (hp : φ → Endures F A p Q X) : Endures F A p Q X :=
  fun n w hw => hp (h n w hw) n w hw

theorem endures_exists {ι : Type} {A : ι → Assertion} {p : Fallible ε α} (h : ∀ i, Endures F (A i) p Q X) :
    Endures F (fun n w => ∃ i, A i n w) p Q X := by
  rintro n w ⟨i, hw⟩
  exact h i n w hw

theorem endures_ite {c : Prop} [Decidable c] {p q : Fallible ε α} (hp : c → Endures F A p Q X)
    (hq : ¬c → Endures F A q Q X) : Endures F A (if c then p else q) Q X := by
  split
  · exact hp ‹_›
  · exact hq ‹_›

theorem endures_refuse {c : Prop} [Decidable c] {x : ε} (h : ∀ n w, A n w → ¬c → R n w) (hX : ∀ n w, A n w → c → X x n w) :
    Endures F A (Fallible.refuse c x : Fallible ε Unit) (fun _ => R) X :=
  endures_ite (fun hc => endures_fail (fun n w hw => hX n w hw hc)) (fun hc => endures_pure (fun n w hw => h n w hw hc))

theorem endures_onlyIf {c : Prop} [Decidable c] {p : Fallible ε Unit} (hp : c → Endures F A p (fun _ => R) X)
    (h : ∀ n w, A n w → ¬c → R n w) : Endures F A (Fallible.onlyIf c p) (fun _ => R) X :=
  endures_ite hp (fun hc => endures_pure (fun n w hw => h n w hw hc))

theorem endures_forEach {f : α → Fallible ε Unit} {as : List α} (hf : ∀ a ∈ as, Endures F A (f a) (fun _ => A) X) :
    Endures F A (Fallible.forEach f as) (fun _ => A) X := by
  induction as with
  | nil => exact endures_pure (fun _ _ hw => hw)
  | cons a as ih => exact endures_bind (hf a List.mem_cons_self) (fun _ => ih (fun b hb => hf b (List.mem_cons_of_mem _ hb)))

/-- A failure of such a call has no effect. -/
theorem failing_whole {c : Call β} {w w' : World} {r : Except Errno β} (hc : c.failsWhole = true)
    (h : (failing F).step c w r w') : c.internal = false ∧ F.may c w ∧ (∃ e, r = .error e) ∧ w' = w := by
  obtain ⟨hi, hmay, hf⟩ := h
  refine ⟨hi, hmay, ?_⟩
  cases hf with
  | error => exact ⟨⟨_, rfl⟩, rfl⟩
  | copy => cases hc
  | write => cases hc
  | finish => cases hc

/-- One call. -/
theorem endures_call {c : Call α} {X : Errno → Assertion} (hc : c.failsWhole = true)
    (hexec : ∀ n w, A n w → Ending Q X n (exec c w).1 (exec c w).2)
    (hfail : ∀ n w e, A (n + 1) w → c.internal = false → F.may c w → X e n w) : Endures F A (Io.call c) Q X := by
  intro n w hw
  refine ⟨hexec n w hw, fun m hm r w' hs => ?_⟩
  obtain ⟨hi, hmay, ⟨e, rfl⟩, rfl⟩ := failing_whole hc hs
  exact hfail m w' e (hm ▸ hw) hi hmay

/-- A call whose answer is always taken. -/
theorem endures_answer {c : Call β} {f : Except Errno β → α} (hc : c.failsWhole = true)
    (hexec : ∀ n w, A n w → Q (f (exec c w).1) n (exec c w).2)
    (hfail : ∀ n w e, A (n + 1) w → c.internal = false → F.may c w → Q (f (.error e)) n w) :
    Endures F A (Prog.call c (fun r => Prog.ret (.ok (f r))) : Fallible ε α) Q X := by
  intro n w hw
  refine ⟨hexec n w hw, fun m hm r w' hs => ?_⟩
  obtain ⟨hi, hmay, ⟨e, rfl⟩, rfl⟩ := failing_whole hc hs
  exact hfail m w' e (hm ▸ hw) hi hmay

/-- With no failure left, what the run alone comes to. -/
theorem endures_run {p : Fallible ε α} (hA : ∀ n w, A n w → n = 0)
    (h : ∀ w, A 0 w → Ending Q X 0 (p.run exec w).1 (p.run exec w).2) : Endures F A p Q X := by
  intro n w hw
  have h0 := hA n w hw
  subst h0
  exact Prog.within_zero (h w hw)

end endures

/-! ## Removal -/

section removal

variable {F : Faults} {A : Assertion} {p : HostPath}

/-- `remove_all` with failing calls changes nothing but at and beneath its path. -/
theorem endures_removeAll (hsite : ∀ n w, A n w → w.host.tree.WF ∧ isDirAt w.host.tree p.dropLast = true) (hne : p ≠ [])
    (hp : Ordinary p) (hframe : ∀ n w h', A n w → Frame (p <+: ·) w.host h' → A n { w with host := h' })
    (hless : ∀ n w, A (n + 1) w → A n w) : Endures F A (removeAll p) (fun _ => A) (fun _ => A) := by
  refine endures_bind (P := fun entries n w => A n w ∧ ∀ e ∈ entries, p <+: e.1 ∧ Clear w.host.tree e.1) ?_ (fun entries => ?_)
  · refine endures_call rfl (fun n w hA => ?_) (fun n w _ hA _ _ => hless n w hA)
    obtain ⟨hw, hd⟩ := hsite n w hA
    obtain ⟨entries, hlisted, hl⟩ := listTree_left hw hp hd
    have hlist : exec (.listTree p) w = (.ok entries, w) := by
      change ((w.host.listTree p).1, { w with host := (w.host.listTree p).2 }) = _
      rw [hlisted]
    rw [hlist]
    refine ⟨hA, fun e he => ?_⟩
    obtain ⟨hpe, hs⟩ := hl.there e he
    have he0 : e.1 ≠ [] := by
      intro h0
      rw [h0] at hpe
      exact hne (List.prefix_nil.mp hpe)
    exact ⟨hpe, clear_of_isDirAt hw (hw.ordinary e.1 hs) he0 (hw.isDirAt_parent hs)⟩
  · suffices Endures F (fun n w => A n w ∧ ∀ e ∈ entries, p <+: e.1 ∧ Clear w.host.tree e.1)
        (Fallible.forEach (fun entry => Io.call (.remove entry.1)) entries)
        (fun _ n w => A n w ∧ ∀ e ∈ entries, p <+: e.1 ∧ Clear w.host.tree e.1) (fun _ => A) from
      this.mono (fun _ _ h => h) (fun _ _ _ h => h.1) (fun _ _ _ h => h)
    refine endures_forEach (fun e he => endures_call rfl (fun n w hA => ?_) (fun n w _ hA _ _ => hless n w hA.1))
    obtain ⟨hA, hall⟩ := hA
    obtain ⟨hpe, hclear⟩ := hall e he
    have hf := @frame_remove _ (hsite n w hA).1 _ hclear
    have hA' := hframe n w _ hA (hf.mono (fun q hq => hq ▸ hpe))
    -- whatever the answer, what is left is what was there
    have hclear' : ∀ e' ∈ entries, p <+: e'.1 ∧ Clear (w.host.remove e.1).2.tree e'.1 := by
      intro e' he'
      obtain ⟨hpe', hc⟩ := hall e' he'
      refine ⟨hpe', hc.ordinary, hc.ne_nil, fun a ha hap hane n' hn' => ?_⟩
      rw [List.nil_append] at hn'
      obtain ⟨m, hm, heq⟩ := remove_shrinks w.host e.1 hn'
      rw [Node.isLnk_of_seen heq]
      exact hc.plain a ha hap hane m hm
    change Ending _ _ n (w.host.remove e.1).1 { w with host := (w.host.remove e.1).2 }
    cases (w.host.remove e.1).1 with
    | ok u => exact ⟨hA', hclear'⟩
    | error x => exact hA'

/-- `remove_all` empties its path, when its listing fails only where nothing is, and a removal only of the directory at the path. -/
theorem endures_emptied (hsite : ∀ n w, A n w → w.host.tree.WF ∧ isDirAt w.host.tree p.dropLast = true) (hne : p ≠ [])
    (hp : Ordinary p) (hframe : ∀ n w h', A n w → Frame (p <+: ·) w.host h' → A n { w with host := h' })
    (hless : ∀ n w, A (n + 1) w → A n w)
    (hlist : ∀ n w, A (n + 1) w → F.may (.listTree p) w → w.host.tree.get p = none)
    (hremove : ∀ n w q, A (n + 1) w → p <+: q → F.may (.remove q) w → q = p ∧ isDirAt w.host.tree p = true) :
    Endures F A (removeAll p) (fun _ n w => A n w ∧ Emptied p w.host.tree) (fun _ n w => A n w ∧ Emptied p w.host.tree) := by
  refine endures_bind (P := fun entries n w => A n w ∧ Left p entries w.host) ?_ (fun entries => ?_)
  · refine endures_call rfl (fun n w hA => ?_) (fun n w _ hA _ hmay => ⟨hless n w hA, Or.inl (hlist n w hA hmay)⟩)
    obtain ⟨hw, hd⟩ := hsite n w hA
    obtain ⟨entries, hlisted, hl⟩ := listTree_left hw hp hd
    have hexec : exec (.listTree p) w = (.ok entries, w) := by
      change ((w.host.listTree p).1, { w with host := (w.host.listTree p).2 }) = _
      rw [hlisted]
    rw [hexec]
    exact ⟨hA, hl⟩
  · induction entries with
    | nil => exact endures_pure (fun n w h => ⟨h.1, Or.inl h.2.gone⟩)
    | cons e entries ih =>
      refine endures_bind (P := fun _ n w => A n w ∧ Left p entries w.host) ?_ (fun _ => ih)
      refine endures_call rfl (fun n w h => ?_) (fun n w _ h _ hmay => ⟨hless n w h.1, Or.inr ?_⟩)
      · obtain ⟨hA, hl⟩ := h
        have hexec : exec (.remove e.1) w = (.ok (), { w with host := w.host.dropEntry e.1 }) := by
          change ((w.host.remove e.1).1, { w with host := (w.host.remove e.1).2 }) = _
          rw [hl.removes]
        rw [hexec]
        have hpe := (hl.there e List.mem_cons_self).1
        have he0 : e.1 ≠ [] := by
          intro h0
          rw [h0] at hpe
          exact hne (List.prefix_nil.mp hpe)
        exact ⟨hframe n w _ hA ((frame_dropEntry hl.wf he0 hl.leaf).mono (fun q hq => hq ▸ hpe)), hl.rest hne⟩
      · obtain ⟨hA, hl⟩ := h
        obtain ⟨he, hd⟩ := hremove n w e.1 hA (hl.there e List.mem_cons_self).1 hmay
        exact ⟨hd, names_eq_nil.mpr (fun c => he ▸ hl.leaf c)⟩

end removal

end TribiosVfs
