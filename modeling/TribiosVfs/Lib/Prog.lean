import Mathlib

/-!
# Programs of fallible calls

A program is a tree of calls: each call names an operation of some signature `E`, the world answers it with a value or an
error of type `ε`, and the program goes on with the answer. Nothing happens between two calls, so the calls are the points
where a program can be stopped and where other programs can interfere.

* `Prog.run` runs a program alone, against a function that answers every call; `Prog.Alone` is what holds when it has ended.
* `Prog.Reach` is what a program can reach when the world answers by a relation and other programs step in between.
* `Prog.Safe` is the rely-guarantee rule with a crash invariant: at every point before a call the invariant holds, every call
  keeps the guarantee, and the value returned meets the postcondition.
* `Prog.Within` is what holds of every run of a program alone in which at most a number of calls fail.
* `Prog.Only` is what can be read off a program without running it: which calls it can make, and what it can return.
-/

/-- A program that makes calls of the signature `E`, each answered by a value or an error, and returns an `α`. -/
inductive Prog (E : Type → Type) (ε : Type) (α : Type) : Type 1 where
  | ret (a : α) : Prog E ε α
  | call {β : Type} (e : E β) (k : Except ε β → Prog E ε α) : Prog E ε α

/-- How a world may answer a call: the answer and the world it leaves, as a relation. -/
structure Semantics (E : Type → Type) (ε σ : Type) where
  step : {β : Type} → E β → σ → Except ε β → σ → Prop

/-- The answers of a semantics to the calls made where a condition holds. -/
def Semantics.restrict {E : Type → Type} {ε σ : Type} (S : Semantics E ε σ) (ok : {β : Type} → E β → σ → Prop) :
    Semantics E ε σ where
  step e s r s' := ok e s ∧ S.step e s r s'

/-- What a program may assume of the others, what it owes them, and what must hold wherever it can be stopped. -/
structure Contract (σ : Type) where
  rely : σ → σ → Prop
  guar : σ → σ → Prop
  inv : σ → Prop
  rely_refl : ∀ s, rely s s
  rely_trans : ∀ s s' s'', rely s s' → rely s' s'' → rely s s''

namespace Prog

variable {E : Type → Type} {ε σ α β : Type}

/-- Sequencing: the second program starts from the value the first returns. -/
def bind : Prog E ε α → (α → Prog E ε β) → Prog E ε β
  | .ret a, f => f a
  | .call e k, f => .call e (fun r => (k r).bind f)

@[simp] theorem ret_bind (a : α) (f : α → Prog E ε β) : (ret a : Prog E ε α).bind f = f a := rfl

@[simp] theorem call_bind {γ : Type} (e : E γ) (k : Except ε γ → Prog E ε α) (f : α → Prog E ε β) :
    (call e k).bind f = call e (fun r => (k r).bind f) := rfl

theorem bind_assoc {γ : Type} (p : Prog E ε α) (f : α → Prog E ε β) (g : β → Prog E ε γ) :
    (p.bind f).bind g = p.bind (fun a => (f a).bind g) := by
  induction p with
  | ret a => rfl
  | call e k ih =>
    simp only [call_bind]
    congr 1
    funext r
    exact ih r

/-- Runs a program alone to its end, each call answered by `exec`. -/
def run (exec : {γ : Type} → E γ → σ → Except ε γ × σ) : Prog E ε α → σ → α × σ
  | .ret a, s => (a, s)
  | .call e k, s => (k (exec e s).1).run exec (exec e s).2

theorem run_bind (exec : {γ : Type} → E γ → σ → Except ε γ × σ) (p : Prog E ε α) (f : α → Prog E ε β) (s : σ) :
    (p.bind f).run exec s = (f (p.run exec s).1).run exec (p.run exec s).2 := by
  induction p generalizing s with
  | ret a => rfl
  | call e k ih => exact ih _ _

/-- What holds at the end of a program's run alone. -/
def Alone (exec : {γ : Type} → E γ → σ → Except ε γ × σ) (Q : α → σ → Prop) (p : Prog E ε α) (s : σ) : Prop :=
  Q (p.run exec s).1 (p.run exec s).2

section alone

variable {exec : {γ : Type} → E γ → σ → Except ε γ × σ}

theorem Alone.mono {Q Q' : α → σ → Prop} {p : Prog E ε α} {s : σ} (h : p.Alone exec Q s) (hQ : ∀ a s, Q a s → Q' a s) :
    p.Alone exec Q' s := hQ _ _ h

/-- The rule of sequencing: the second program runs from where the first has ended. -/
theorem Alone.bind {P : β → σ → Prop} {Q : α → σ → Prop} {p : Prog E ε β} {f : β → Prog E ε α} {s : σ}
    (h : p.Alone exec P s) (hf : ∀ b s', P b s' → (f b).Alone exec Q s') : (p.bind f).Alone exec Q s := by
  unfold Alone
  rw [run_bind]
  exact hf _ _ h

end alone

/-- Runs a program alone for a number of calls. -/
def advance (exec : {γ : Type} → E γ → σ → Except ε γ × σ) : Nat → Prog E ε α → σ → Prog E ε α × σ
  | 0, p, s => (p, s)
  | _ + 1, .ret a, s => (.ret a, s)
  | n + 1, .call e k, s => (k (exec e s).1).advance exec n (exec e s).2

/-- Runs a program alone to its end, as long as each call is made where a condition holds. -/
def runIf (ok : {γ : Type} → E γ → σ → Bool) (exec : {γ : Type} → E γ → σ → Except ε γ × σ) :
    Prog E ε α → σ → Option (α × σ)
  | .ret a, s => some (a, s)
  | .call e k, s => if ok e s then (k (exec e s).1).runIf ok exec (exec e s).2 else none

/-- Where the condition holds throughout, the run is the run. -/
theorem runIf_eq_run {ok : {γ : Type} → E γ → σ → Bool} {exec : {γ : Type} → E γ → σ → Except ε γ × σ}
    (p : Prog E ε α) (s : σ) (h : (p.runIf ok exec s).isSome = true) : p.runIf ok exec s = some (p.run exec s) := by
  induction p generalizing s with
  | ret a => rfl
  | call e k ih =>
    unfold runIf at h ⊢
    split at h
    · rename_i hok
      rw [if_pos hok]
      exact ih _ _ h
    · cases h

/-- The points a program can come to from a start, with steps of others (`R`) in between. -/
inductive Reach (S : Semantics E ε σ) (R : σ → σ → Prop) (p : Prog E ε α) (s : σ) : Prog E ε α → σ → Prop where
  | refl : Reach S R p s p s
  | env {p' s' s''} : Reach S R p s p' s' → R s' s'' → Reach S R p s p' s''
  | step {γ : Type} {e : E γ} {k s' r s''} :
      Reach S R p s (.call e k) s' → S.step e s' r s'' → Reach S R p s (k r) s''

/-- The rely-guarantee rule with a crash invariant, by recursion over the program. -/
def Safe (S : Semantics E ε σ) (C : Contract σ) (Q : α → σ → Prop) : Prog E ε α → σ → Prop
  | .ret a, s => ∀ s', C.rely s s' → Q a s'
  | .call e k, s => ∀ s', C.rely s s' → C.inv s' ∧
      ∀ r s'', S.step e s' r s'' → C.guar s' s'' ∧ (k r).Safe S C Q s''

section rules

variable {S : Semantics E ε σ} {C : Contract σ} {Q Q' : α → σ → Prop}

/-- A step of the others keeps a program safe. -/
theorem Safe.rely {p : Prog E ε α} {s s' : σ} (h : p.Safe S C Q s) (hR : C.rely s s') : p.Safe S C Q s' := by
  cases p with
  | ret a => exact fun s'' h' => h s'' (C.rely_trans _ _ _ hR h')
  | call e k => exact fun s'' h' => h s'' (C.rely_trans _ _ _ hR h')

/-- A weaker postcondition. -/
theorem Safe.mono {p : Prog E ε α} {s : σ} (h : p.Safe S C Q s) (hQ : ∀ a s, Q a s → Q' a s) : p.Safe S C Q' s := by
  induction p generalizing s with
  | ret a => exact fun s' h' => hQ _ _ (h s' h')
  | call e k ih =>
    intro s' h'
    obtain ⟨hI, hstep⟩ := h s' h'
    exact ⟨hI, fun r s'' hs => ⟨(hstep r s'' hs).1, ih r (hstep r s'' hs).2⟩⟩

/-- The rule of sequencing: what the first program returns is where the second starts. -/
theorem Safe.bind {p : Prog E ε β} {f : β → Prog E ε α} {s : σ} {P : β → σ → Prop} (h : p.Safe S C P s)
    (hf : ∀ b s', P b s' → (f b).Safe S C Q s') : (p.bind f).Safe S C Q s := by
  induction p generalizing s with
  | ret b => exact hf b s (h s (C.rely_refl s))
  | call e k ih =>
    intro s' h'
    obtain ⟨hI, hstep⟩ := h s' h'
    exact ⟨hI, fun r s'' hs => ⟨(hstep r s'' hs).1, ih r (hstep r s'' hs).2⟩⟩

/-- Safety holds at every point a safe program comes to. -/
theorem Safe.reach {p p' : Prog E ε α} {s s' : σ} (h : p.Safe S C Q s) (hr : Reach S C.rely p s p' s') :
    p'.Safe S C Q s' := by
  induction hr with
  | refl => exact h
  | env _ hR ih => exact ih.rely hR
  | step _ hs ih => exact ((ih _ (C.rely_refl _)).2 _ _ hs).2

/-- Wherever a safe program can be stopped the invariant holds, or the program has returned and its postcondition holds. -/
theorem Safe.inv_or_post {p : Prog E ε α} {s : σ} (h : p.Safe S C Q s) :
    C.inv s ∨ ∃ a, p = .ret a ∧ Q a s := by
  cases p with
  | ret a => exact Or.inr ⟨a, rfl, h s (C.rely_refl s)⟩
  | call e k => exact Or.inl (h s (C.rely_refl s)).1

end rules

/-- Running a program alone reaches its return. -/
theorem reach_run {S : Semantics E ε σ} {R : σ → σ → Prop} (exec : {γ : Type} → E γ → σ → Except ε γ × σ)
    (hexec : ∀ {γ : Type} (e : E γ) (s : σ), S.step e s (exec e s).1 (exec e s).2)
    {p : Prog E ε α} {s : σ} (p' : Prog E ε α) (s' : σ) (h : Reach S R p s p' s') :
    Reach S R p s (.ret (p'.run exec s').1) (p'.run exec s').2 := by
  induction p' generalizing s' with
  | ret a => exact h
  | call e k ih => exact ih _ _ (h.step (hexec e s'))

/-- A point that sequenced programs come to lies in the first program, or in the second after the first has returned. -/
theorem reach_bind {S : Semantics E ε σ} {R : σ → σ → Prop} {p : Prog E ε β} {f : β → Prog E ε α} {s : σ}
    {q : Prog E ε α} {s' : σ} (h : Reach S R (p.bind f) s q s') :
    (∃ p', Reach S R p s p' s' ∧ q = p'.bind f) ∨ ∃ b s₁, Reach S R p s (.ret b) s₁ ∧ Reach S R (f b) s₁ q s' := by
  induction h with
  | refl => exact Or.inl ⟨p, .refl, rfl⟩
  | env _ hR ih =>
    rcases ih with ⟨p', hp, rfl⟩ | ⟨b, s₁, hp, hq⟩
    · exact Or.inl ⟨p', hp.env hR, rfl⟩
    · exact Or.inr ⟨b, s₁, hp, hq.env hR⟩
  | @step γ e k s₂ r s₃ _ hs ih =>
    rcases ih with ⟨p', hp, heq⟩ | ⟨b, s₁, hp, hq⟩
    · cases p' with
      | ret b =>
        rw [ret_bind] at heq
        exact Or.inr ⟨b, s₂, hp, heq ▸ Reach.step (heq ▸ Reach.refl) hs⟩
      | call e' k' =>
        rw [call_bind] at heq
        cases heq
        exact Or.inl ⟨k' r, hp.step hs, rfl⟩
    · exact Or.inr ⟨b, s₁, hp, hq.step hs⟩

theorem Reach.trans {S : Semantics E ε σ} {R : σ → σ → Prop} {p q q' : Prog E ε α} {s s' s'' : σ} (h : Reach S R p s q s')
    (h' : Reach S R q s' q' s'') : Reach S R p s q' s'' := by
  induction h' with
  | refl => exact h
  | env _ hR ih => exact ih.env hR
  | step _ hs ih => exact ih.step hs

/-- What a program comes to, it comes to with more to do afterwards. -/
theorem Reach.bind {S : Semantics E ε σ} {R : σ → σ → Prop} {p q : Prog E ε β} {s s' : σ} (h : Reach S R p s q s')
    (f : β → Prog E ε α) : Reach S R (p.bind f) s (q.bind f) s' := by
  induction h with
  | refl => exact .refl
  | env _ hR ih => exact ih.env hR
  | step _ hs ih => exact Reach.step ih hs

/-- A program that has returned stays where it is, and what another program has returned by then it returns there too. -/
theorem reach_after_ret {S : Semantics E ε σ} {R : σ → σ → Prop} {γ : Type} {p : Prog E ε γ} {c : γ} {a : α} {s s' s'' : σ}
    {q : Prog E ε α} (hp : Reach S R p s (.ret c) s') (h : Reach S R (.ret a) s' q s'') :
    q = .ret a ∧ Reach S R p s (.ret c) s'' := by
  induction h with
  | refl => exact ⟨rfl, hp⟩
  | env _ hR ih => exact ⟨ih.1, ih.2.env hR⟩
  | step _ _ ih => cases ih.1

theorem eq_of_reach_ret {S : Semantics E ε σ} {R : σ → σ → Prop} {a b : α} {s s' : σ} (h : Reach S R (.ret a) s (.ret b) s') :
    b = a := by
  have hret := (reach_after_ret (Reach.refl (p := .ret a) (S := S)) h).1
  cases hret
  rfl

/-- What a program comes to that starts with a call: it is still before the call, or it has gone on from an answer. -/
theorem reach_call {S : Semantics E ε σ} {R : σ → σ → Prop} {γ : Type} {e : E γ} {k : Except ε γ → Prog E ε α} {s s' : σ}
    {q : Prog E ε α} (h : Reach S R (.call e k) s q s') : q = .call e k ∨
      ∃ s₁ r s₂, Reach S R (.call e k) s (.call e k) s₁ ∧ S.step e s₁ r s₂ ∧ Reach S R (k r) s₂ q s' := by
  induction h with
  | refl => exact Or.inl rfl
  | env _ hR ih =>
    rcases ih with rfl | ⟨s₁, r, s₂, hbefore, hstep, hafter⟩
    · exact Or.inl rfl
    · exact Or.inr ⟨s₁, r, s₂, hbefore, hstep, hafter.env hR⟩
  | @step _ e' k' s₃ r' s₄ hreach hs ih =>
    rcases ih with heq | ⟨s₁, r, s₂, hbefore, hstep, hafter⟩
    · cases heq
      exact Or.inr ⟨s₃, r', s₄, hreach, hs, .refl⟩
    · exact Or.inr ⟨s₁, r, s₂, hbefore, hstep, hafter.step hs⟩

/-- A program that only changes the value of another returns what the other returned. -/
theorem reach_map {S : Semantics E ε σ} {R : σ → σ → Prop} {p : Prog E ε β} {f : β → α} {s s' : σ} {a : α}
    (h : Reach S R (p.bind (fun b => .ret (f b))) s (.ret a) s') : ∃ b, Reach S R p s (.ret b) s' ∧ a = f b := by
  rcases reach_bind h with ⟨p', hp, heq⟩ | ⟨b, s₁, hp, hq⟩
  · cases p' with
    | ret b =>
      rw [ret_bind] at heq
      cases heq
      exact ⟨b, hp, rfl⟩
    | call e k => cases heq
  · obtain ⟨heq, hp'⟩ := reach_after_ret hp hq
    cases heq
    exact ⟨b, hp', rfl⟩

/-- What holds at the end of every run in which at most a number of calls fail: `exec` answers the others, and `S` says how a call
may fail. The postcondition is told how many failures are left. -/
def Within (exec : {γ : Type} → E γ → σ → Except ε γ × σ) (S : Semantics E ε σ) (Q : Nat → α → σ → Prop) :
    Prog E ε α → Nat → σ → Prop
  | .ret a, n, s => Q n a s
  | .call e k, n, s => (k (exec e s).1).Within exec S Q n (exec e s).2 ∧
      ∀ m, n = m + 1 → ∀ r s', S.step e s r s' → (k r).Within exec S Q m s'

section within

variable {exec : {γ : Type} → E γ → σ → Except ε γ × σ} {S : Semantics E ε σ} {Q Q' : Nat → α → σ → Prop}

theorem Within.mono {p : Prog E ε α} {n : Nat} {s : σ} (h : p.Within exec S Q n s) (hQ : ∀ n a s, Q n a s → Q' n a s) :
    p.Within exec S Q' n s := by
  induction p generalizing n s with
  | ret a => exact hQ n a s h
  | call e k ih => exact ⟨ih _ h.1, fun m hm r s' hs => ih r (h.2 m hm r s' hs)⟩

theorem Within.bind {p : Prog E ε β} {f : β → Prog E ε α} {P : Nat → β → σ → Prop} {n : Nat} {s : σ}
    (h : p.Within exec S P n s) (hf : ∀ n b s, P n b s → (f b).Within exec S Q n s) : (p.bind f).Within exec S Q n s := by
  induction p generalizing n s with
  | ret b => exact hf n b s h
  | call e k ih => exact ⟨ih _ h.1, fun m hm r s' hs => ih r (h.2 m hm r s' hs)⟩

/-- The run in which no call fails is one of them. -/
theorem Within.run {p : Prog E ε α} {n : Nat} {s : σ} (h : p.Within exec S Q n s) : Q n (p.run exec s).1 (p.run exec s).2 := by
  induction p generalizing s with
  | ret a => exact h
  | call e k ih => exact ih _ h.1

/-- With no failure left there is only that run. -/
theorem within_zero {p : Prog E ε α} {s : σ} (h : Q 0 (p.run exec s).1 (p.run exec s).2) : p.Within exec S Q 0 s := by
  induction p generalizing s with
  | ret a => exact h
  | call e k ih => exact ⟨ih _ h, fun m hm => absurd hm (Nat.succ_ne_zero m).symm⟩

/-- What holds within a number of failures holds from any point a run comes to without one. -/
theorem Within.advance {p : Prog E ε α} {n : Nat} {s : σ} (h : p.Within exec S Q n s) (k : Nat) :
    (p.advance exec k s).1.Within exec S Q n (p.advance exec k s).2 := by
  induction k generalizing p s with
  | zero =>
    rw [Prog.advance]
    exact h
  | succ k ih =>
    cases p with
    | ret a =>
      rw [Prog.advance]
      exact h
    | call e f =>
      rw [Prog.advance]
      exact ih h.1

end within

/-- Every call a program can make is a good one, and every value it can return meets a condition, whatever the answers. -/
def Only (good : {γ : Type} → E γ → Prop) (post : α → Prop) : Prog E ε α → Prop
  | .ret a => post a
  | .call e k => good e ∧ ∀ r, (k r).Only good post

section only

variable {good good' : {γ : Type} → E γ → Prop} {post post' : α → Prop}

theorem Only.mono {p : Prog E ε α} (h : p.Only good post) (hg : ∀ {γ : Type} (e : E γ), good e → good' e)
    (hp : ∀ a, post a → post' a) : p.Only good' post' := by
  induction p with
  | ret a => exact hp a h
  | call e k ih => exact ⟨hg e h.1, fun r => ih r (h.2 r)⟩

theorem Only.bind {p : Prog E ε β} {f : β → Prog E ε α} {mid : β → Prop} (h : p.Only good mid)
    (hf : ∀ b, mid b → (f b).Only good post) : (p.bind f).Only good post := by
  induction p with
  | ret b => exact hf b h
  | call e k ih => exact ⟨h.1, fun r => ih r (h.2 r)⟩

theorem Only.and {p : Prog E ε α} (h : p.Only good post) (h' : p.Only good' post') :
    p.Only good (fun a => post a ∧ post' a) := by
  induction p with
  | ret a => exact ⟨h, h'⟩
  | call e k ih => exact ⟨h.1, fun r => ih r (h.2 r) (h'.2 r)⟩

theorem only_trivial (p : Prog E ε α) : p.Only (fun _ => True) (fun _ => True) := by
  induction p with
  | ret a => trivial
  | call e k ih => exact ⟨trivial, fun r => ih r⟩

/-- What can be read off a program can be read off every point it comes to. -/
theorem Only.reach {S : Semantics E ε σ} {R : σ → σ → Prop} {p p' : Prog E ε α} {s s' : σ} (h : p.Only good post)
    (hr : Reach S R p s p' s') : p'.Only good post := by
  induction hr with
  | refl => exact h
  | env _ _ ih => exact ih
  | step _ _ ih => exact ih.2 _

/-- A property that every good call keeps holds throughout a program of good calls. -/
theorem Only.safe {S : Semantics E ε σ} {C : Contract σ} {P : σ → Prop} {p : Prog E ε α} {s : σ} (h : p.Only good post)
    (hcall : ∀ {γ : Type} (e : E γ) (s : σ) r s', good e → P s → S.step e s r s' → C.guar s s' ∧ P s')
    (hrely : ∀ s s', P s → C.rely s s' → P s') (hinv : ∀ s, P s → C.inv s) (hs : P s) :
    p.Safe S C (fun a s' => post a ∧ P s') s := by
  induction p generalizing s with
  | ret a => exact fun s' hR => ⟨h, hrely s s' hs hR⟩
  | call e k ih =>
    intro s' hR
    have hs' := hrely s s' hs hR
    refine ⟨hinv s' hs', fun r s'' hstep => ?_⟩
    obtain ⟨hg, hP⟩ := hcall e s' r s'' h.1 hs' hstep
    exact ⟨hg, ih r (h.2 r) hP⟩

end only

end Prog
