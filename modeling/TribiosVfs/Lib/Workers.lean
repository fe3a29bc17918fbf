import TribiosVfs.Lib.Prog

/-!
# A main thread and the jobs it leaves behind

A system of one main thread, which runs one program after another over the memory it keeps, and of jobs: a program of the main
thread may end by starting one, which then runs by itself. The world may also change by itself, and the whole system can stop at
any point: the main thread's memory and every job are lost.

`Workers.Invariant.holds` is the invariant rule: a contract for the main thread, which may depend on the jobs that are running,
and one for each job, such that each one's guarantee is what the others rely on.
-/

/-- Between programs the main thread holds its memory; a program returns the memory, and a job to start. -/
inductive MainThread (E : Type → Type) (ε M J : Type) : Type 1 where
  | idle (m : M)
  | busy (m : M) (p : Prog E ε (M × Option J))

/-- The main thread, the jobs it has started, and the world they share. -/
structure Workers (E : Type → Type) (ε M J σ : Type) : Type 1 where
  main : MainThread E ε M J
  jobs : List (J × Prog E ε Unit)
  world : σ

namespace Workers

variable {E : Type → Type} {ε M J σ : Type}

/-- How the world may answer the main thread, by the memory its program was begun with, and the jobs; the programs an idle main
thread may start; the program of a job; what the world may do by itself, by that memory too; and what a stop leaves. -/
structure System (E : Type → Type) (ε M J σ : Type) where
  main : M → Semantics E ε σ
  job : Semantics E ε σ
  offers : M → σ → Prog E ε (M × Option J) → Prop
  work : J → Prog E ε Unit
  env : M → σ → σ → Prop
  down : M
  stop : σ → σ

/-- The memory the main thread holds, or has begun its program with. -/
def memory : MainThread E ε M J → M
  | .idle m => m
  | .busy m _ => m

/-- The job a program asks for. -/
def System.started (Y : System E ε M J σ) (j : Option J) : List (J × Prog E ε Unit) := j.toList.map (fun j => (j, Y.work j))

/-- One step of one thread. -/
inductive Step (Y : System E ε M J σ) : Workers E ε M J σ → Workers E ε M J σ → Prop where
  | call {γ : Type} {e : E γ} {m k r jobs s s'} : (Y.main m).step e s r s' →
      Step Y ⟨.busy m (.call e k), jobs, s⟩ ⟨.busy m (k r), jobs, s'⟩
  | finish {m m' j jobs s} : Step Y ⟨.busy m (.ret (m', j)), jobs, s⟩ ⟨.idle m', jobs ++ Y.started j, s⟩
  | work {γ : Type} {e : E γ} {main j k r pre post s s'} : Y.job.step e s r s' →
      Step Y ⟨main, pre ++ (j, .call e k) :: post, s⟩ ⟨main, pre ++ (j, k r) :: post, s'⟩

/-- The states a system comes to. -/
inductive Reach (Y : System E ε M J σ) (c : Workers E ε M J σ) : Workers E ε M J σ → Prop where
  | refl : Reach Y c c
  | step {c' c''} : Reach Y c c' → Step Y c' c'' → Reach Y c c''
  | start {m p jobs s} : Reach Y c ⟨.idle m, jobs, s⟩ → Y.offers m s p → Reach Y c ⟨.busy m p, jobs, s⟩
  | env {main jobs s s'} : Reach Y c ⟨main, jobs, s⟩ → Y.env (memory main) s s' → Reach Y c ⟨main, jobs, s'⟩
  | stop {c'} : Reach Y c c' → Reach Y c ⟨.idle Y.down, [], Y.stop c'.world⟩

/-- The states the threads come to by themselves: no program is started and nothing stops. -/
inductive Runs (Y : System E ε M J σ) (c : Workers E ε M J σ) : Workers E ε M J σ → Prop where
  | refl : Runs Y c c
  | step {c' c''} : Runs Y c c' → Step Y c' c'' → Runs Y c c''
  | env {main jobs s s'} : Runs Y c ⟨main, jobs, s⟩ → Y.env (memory main) s s' → Runs Y c ⟨main, jobs, s'⟩

section running

variable {Y : System E ε M J σ} (exec : {γ : Type} → E γ → σ → Except ε γ × σ)

theorem Runs.trans {c c' c'' : Workers E ε M J σ} (h : Runs Y c c') (h' : Runs Y c' c'') : Runs Y c c'' := by
  induction h' with
  | refl => exact h
  | step _ hs ih => exact ih.step hs
  | env _ he ih => exact ih.env he

theorem Reach.runs {c c' c'' : Workers E ε M J σ} (h : Reach Y c c') (h' : Runs Y c' c'') : Reach Y c c'' := by
  induction h' with
  | refl => exact h
  | step _ hs ih => exact ih.step hs
  | env _ he ih => exact ih.env he

/-- The main thread can make some calls of its program while the jobs rest. -/
theorem runs_advance {m : M} (hexec : ∀ {γ : Type} (e : E γ) (s : σ), (Y.main m).step e s (exec e s).1 (exec e s).2)
    (n : Nat) (p : Prog E ε (M × Option J)) (jobs : List (J × Prog E ε Unit)) (s : σ) :
    Runs Y ⟨.busy m p, jobs, s⟩ ⟨.busy m (p.advance exec n s).1, jobs, (p.advance exec n s).2⟩ := by
  induction n generalizing p s with
  | zero => exact .refl
  | succ n ih =>
    cases p with
    | ret a => exact .refl
    | call e k => exact (Runs.refl.step (.call (hexec e s))).trans (ih _ _)

/-- The main thread can run its program to the end while the jobs rest. -/
theorem runs_main {m : M} (hexec : ∀ {γ : Type} (e : E γ) (s : σ), (Y.main m).step e s (exec e s).1 (exec e s).2)
    (p : Prog E ε (M × Option J)) (jobs : List (J × Prog E ε Unit)) (s : σ) :
    Runs Y ⟨.busy m p, jobs, s⟩ ⟨.idle (p.run exec s).1.1, jobs ++ Y.started (p.run exec s).1.2, (p.run exec s).2⟩ := by
  induction p generalizing s with
  | ret a => exact Runs.refl.step .finish
  | call e k ih => exact (Runs.refl.step (.call (hexec e s))).trans (ih _ _)

/-- What every call keeps of the world, and the world by itself and a stop too, holds throughout. -/
theorem Reach.world {P : σ → Prop}
    (hmain : ∀ m {γ : Type} (e : E γ) s r s', (Y.main m).step e s r s' → P s → P s')
    (hjob : ∀ {γ : Type} (e : E γ) s r s', Y.job.step e s r s' → P s → P s')
    (henv : ∀ m s s', Y.env m s s' → P s → P s') (hstop : ∀ s, P s → P (Y.stop s))
    {c c' : Workers E ε M J σ} (h : Reach Y c c') (hc : P c.world) : P c'.world := by
  induction h with
  | refl => exact hc
  | start _ _ ih => exact ih
  | env _ he ih => exact henv _ _ _ he ih
  | stop _ ih => exact hstop _ ih
  | step _ hs ih =>
    cases hs with
    | call hstep => exact hmain _ _ _ _ _ hstep ih
    | finish => exact ih
    | work hstep => exact hjob _ _ _ _ hstep ih

/-- What the program of every job keeps of itself holds of every running job. -/
theorem Reach.jobs_only {good : J → {γ : Type} → E γ → Prop} (hwork : ∀ j, (Y.work j).Only (good j) (fun _ => True))
    {c c' : Workers E ε M J σ} (h : Reach Y c c') (hc : ∀ e ∈ c.jobs, e.2.Only (good e.1) (fun _ => True)) :
    ∀ e ∈ c'.jobs, e.2.Only (good e.1) (fun _ => True) := by
  induction h with
  | refl => exact hc
  | start _ _ ih => exact ih
  | env _ _ ih => exact ih
  | stop _ _ => exact fun _ he => nomatch he
  | step _ hs ih =>
    cases hs with
    | call _ => exact ih
    | @finish m m' j jobs s =>
      intro e he
      rcases List.mem_append.mp he with he | he
      · exact ih e he
      · obtain ⟨j, -, rfl⟩ := List.mem_map.mp he
        exact hwork j
    | @work γ e main j k r pre post s s' _ =>
      intro e' he
      rcases List.mem_append.mp he with he | he
      · exact ih e' (List.mem_append_left _ he)
      · rcases List.mem_cons.mp he with rfl | he
        · exact (ih (j, .call e k) (by simp)).2 r
        · exact ih e' (List.mem_append_right _ (List.mem_cons_of_mem _ he))

end running

/-! ## One program among running jobs -/

section among

variable {Y : System E ε M J σ} {C D : Contract σ} {Q : M × Option J → σ → Prop}

/-- The main thread runs its program, or rests where the program has ended; every job is safe. -/
def Among (Y : System E ε M J σ) (C D : Contract σ) (Q : M × Option J → σ → Prop) (c : Workers E ε M J σ) : Prop :=
  (match c.main with
    | .busy m p => p.Safe (Y.main m) C Q c.world
    | .idle _ => ∃ r, Q r c.world) ∧ ∀ e ∈ c.jobs, e.2.Safe Y.job D (fun _ _ => True) c.world

/-- Safety is kept while a program runs among jobs that all have one contract. -/
theorem Among.runs (hQ : ∀ r s s', Q r s → C.rely s s' → Q r s')
    (hwork : ∀ r s j, Q r s → r.2 = some j → (Y.work j).Safe Y.job D (fun _ _ => True) s)
    (hCD : ∀ s s', C.guar s s' → D.rely s s') (hDC : ∀ s s', D.guar s s' → C.rely s s')
    (hDD : ∀ s s', D.guar s s' → D.rely s s') (henv : ∀ m s s', Y.env m s s' → C.rely s s' ∧ D.rely s s')
    {c c' : Workers E ε M J σ} (h : Among Y C D Q c) (hr : Runs Y c c') : Among Y C D Q c' := by
  have hmain : ∀ {main : MainThread E ε M J} {jobs jobs' : List (J × Prog E ε Unit)} {s s' : σ},
      Among Y C D Q ⟨main, jobs, s⟩ → C.rely s s' →
      (∀ e ∈ jobs', e.2.Safe Y.job D (fun _ _ => True) s') → Among Y C D Q ⟨main, jobs', s'⟩ := by
    intro main jobs jobs' s s' ha hrely hjobs
    cases main with
    | busy m p => exact ⟨Prog.Safe.rely ha.1 hrely, hjobs⟩
    | idle m =>
      obtain ⟨r, hq⟩ := ha.1
      exact ⟨⟨r, hQ r s s' hq hrely⟩, hjobs⟩
  induction hr with
  | refl => exact h
  | env _ he ih => exact hmain ih (henv _ _ _ he).1 (fun e hj => (ih.2 e hj).rely (henv _ _ _ he).2)
  | step _ hs ih =>
    cases hs with
    | @call γ e m k r jobs s s' hstep =>
      obtain ⟨hg, hk⟩ := (ih.1 s (C.rely_refl s)).2 r s' hstep
      exact ⟨hk, fun e hj => (ih.2 e hj).rely (hCD _ _ hg)⟩
    | @finish m m' j jobs s =>
      have hq := ih.1 s (C.rely_refl s)
      refine ⟨⟨_, hq⟩, fun e he => ?_⟩
      rcases List.mem_append.mp he with he | he
      · exact ih.2 e he
      · obtain ⟨j', hj', rfl⟩ := List.mem_map.mp he
        exact hwork _ s j' hq (by simpa using hj')
    | @work γ e main j k r pre post s s' hstep =>
      obtain ⟨hg, hk⟩ := (ih.2 (j, .call e k) (by simp) s (D.rely_refl s)).2 r s' hstep
      refine hmain ih (hDC _ _ hg) (fun e' he => ?_)
      rcases List.mem_append.mp he with he | he
      · exact (ih.2 e' (List.mem_append_left _ he)).rely (hDD _ _ hg)
      · rcases List.mem_cons.mp he with rfl | he
        · exact hk
        · exact (ih.2 e' (List.mem_append_right _ (List.mem_cons_of_mem _ he))).rely (hDD _ _ hg)

/-- Wherever the program is, the invariant holds, or what its end has reached. -/
theorem Among.inv_or_post {c : Workers E ε M J σ} (h : Among Y C D Q c) : C.inv c.world ∨ ∃ r, Q r c.world := by
  have hm := h.1
  cases hc : c.main with
  | idle m =>
    rw [hc] at hm
    exact Or.inr hm
  | busy m p =>
    rw [hc] at hm
    rcases Prog.Safe.inv_or_post hm with hi | ⟨r, -, hr⟩
    · exact Or.inl hi
    · exact Or.inr ⟨r, hr⟩

end among

/-- The contracts of an invariant proof. Running jobs have different keys. `Idle m tags s` is what holds while the main thread
rests with memory `m` next to the jobs `tags`, and `Kept` is what holds at every point, and so after a stop. -/
structure Invariant (Y : System E ε M J σ) (K : Type) where
  key : J → K
  mainC : M → List J → Contract σ
  jobC : J → Contract σ
  Idle : M → List J → σ → Prop
  Kept : σ → Prop
  idle_kept : ∀ {m tags s}, Idle m tags s → Kept s
  main_kept : ∀ {m tags s}, (mainC m tags).inv s → Kept s
  idle_rely : ∀ {m tags s s'}, Idle m tags s → (mainC m tags).rely s s' → Idle m tags s'
  main_job : ∀ {m tags j s s'}, j ∈ tags → (mainC m tags).guar s s' → (jobC j).rely s s'
  job_main : ∀ {m tags j s s'}, j ∈ tags → (jobC j).guar s s' → (mainC m tags).rely s s'
  job_job : ∀ {j j' s s'}, key j ≠ key j' → (jobC j).guar s s' → (jobC j').rely s s'
  env_main : ∀ {m tags s s'}, Y.env m s s' → (mainC m tags).rely s s'
  env_job : ∀ {m j s s'}, Y.env m s s' → (jobC j).rely s s'
  start : ∀ {m tags s p}, Idle m tags s → Y.offers m s p → p.Safe (Y.main m) (mainC m tags) (fun r s' =>
    Idle r.1 (tags ++ r.2.toList) s' ∧
      ∀ j ∈ r.2, key j ∉ tags.map key ∧ (Y.work j).Safe Y.job (jobC j) (fun _ _ => True) s') s
  stopped : ∀ {s}, Kept s → Idle Y.down [] (Y.stop s)

section invariant

variable {K : Type} {Y : System E ε M J σ} (I : Invariant Y K)

/-- What the main thread is known to be doing. -/
def Invariant.MainOk (tags : List J) (s : σ) : MainThread E ε M J → Prop
  | .idle m => I.Idle m tags s
  | .busy m p => p.Safe (Y.main m) (I.mainC m tags) (fun r s' => I.Idle r.1 (tags ++ r.2.toList) s' ∧
      ∀ j ∈ r.2, I.key j ∉ tags.map I.key ∧ (Y.work j).Safe Y.job (I.jobC j) (fun _ _ => True) s') s

/-- The jobs that are running. -/
def tags (c : Workers E ε M J σ) : List J := c.jobs.map (·.1)

/-- What the proof maintains. -/
structure Invariant.Holds (c : Workers E ε M J σ) : Prop where
  nodup : (c.tags.map I.key).Nodup
  main : I.MainOk c.tags c.world c.main
  jobs : ∀ e ∈ c.jobs, e.2.Safe Y.job (I.jobC e.1) (fun _ _ => True) c.world

theorem Invariant.Holds.kept {c : Workers E ε M J σ} (h : I.Holds c) : I.Kept c.world := by
  have hm := h.main
  cases hc : c.main with
  | idle m =>
    rw [hc] at hm
    exact I.idle_kept hm
  | busy m p =>
    rw [hc] at hm
    rcases Prog.Safe.inv_or_post hm with hi | ⟨r, -, hr, -⟩
    · exact I.main_kept hi
    · exact I.idle_kept hr

/-- A step of the others keeps what is known of the main thread. -/
theorem Invariant.MainOk.rely {tags : List J} {s s' : σ} {main : MainThread E ε M J} (h : I.MainOk tags s main)
    (hr : (I.mainC (memory main) tags).rely s s') : I.MainOk tags s' main := by
  cases main with
  | idle m => exact I.idle_rely h hr
  | busy m p => exact Prog.Safe.rely h hr

theorem Invariant.Holds.step {c c' : Workers E ε M J σ} (h : I.Holds c) (hs : Step Y c c') : I.Holds c' := by
  cases hs with
  | @call γ e m k r jobs s s' hstep =>
    obtain ⟨hg, hk⟩ := (h.main s ((I.mainC m _).rely_refl s)).2 r s' hstep
    exact ⟨h.nodup, hk, fun j hj => (h.jobs j hj).rely (I.main_job (List.mem_map_of_mem hj) hg)⟩
  | @finish m m' j jobs s =>
    obtain ⟨hidle, hjob⟩ := h.main s ((I.mainC m _).rely_refl s)
    cases j with
    | none =>
      simp only [System.started, Option.toList_none, List.map_nil, List.append_nil] at hidle ⊢
      exact ⟨h.nodup, hidle, h.jobs⟩
    | some j =>
      obtain ⟨hnew, hsafe⟩ := hjob j rfl
      have htags : (⟨.idle m', jobs ++ Y.started (some j), s⟩ : Workers E ε M J σ).tags =
          (⟨.busy m (.ret (m', some j)), jobs, s⟩ : Workers E ε M J σ).tags ++ [j] := by
        simp [Workers.tags, System.started]
      refine ⟨?_, ?_, fun e he => ?_⟩
      · rw [htags, List.map_append]
        exact h.nodup.append (List.nodup_singleton (I.key j)) (by simpa using hnew)
      · rw [htags]
        exact hidle
      · rcases List.mem_append.mp he with he | he
        · exact h.jobs e he
        · simp only [System.started, Option.toList_some, List.map_cons, List.map_nil, List.mem_singleton] at he
          subst he
          exact hsafe
  | @work γ e main j k r pre post s s' hstep =>
    have hj := h.jobs (j, .call e k) (by simp)
    obtain ⟨hg, hk⟩ := (hj s ((I.jobC j).rely_refl s)).2 r s' hstep
    have hmem : j ∈ (⟨main, pre ++ (j, .call e k) :: post, s⟩ : Workers E ε M J σ).tags := by simp [Workers.tags]
    have htags : (⟨main, pre ++ (j, k r) :: post, s'⟩ : Workers E ε M J σ).tags =
        (⟨main, pre ++ (j, .call e k) :: post, s⟩ : Workers E ε M J σ).tags := by simp [Workers.tags]
    have hnd := h.nodup
    refine ⟨by rw [htags]; exact hnd, ?_, fun e' he' => ?_⟩
    · rw [htags]
      exact Invariant.MainOk.rely I h.main (I.job_main hmem hg)
    · simp only [Workers.tags, List.map_append, List.map_cons, List.nodup_append, List.nodup_cons] at hnd
      have hkey : ∀ {l : List (J × Prog E ε Unit)}, e' ∈ l → I.key e'.1 ∈ (l.map (·.1)).map I.key :=
        fun he => List.mem_map_of_mem (List.mem_map_of_mem he)
      rcases List.mem_append.mp he' with hp | hp
      · have hne : I.key j ≠ I.key e'.1 := fun he => hnd.2.2 _ (hkey hp) _ List.mem_cons_self he.symm
        exact (h.jobs e' (List.mem_append_left _ hp)).rely (I.job_job hne hg)
      · rcases List.mem_cons.mp hp with rfl | hp
        · exact hk
        · have hne : I.key j ≠ I.key e'.1 := fun he => hnd.2.1.1 (he ▸ hkey hp)
          exact (h.jobs e' (List.mem_append_right _ (List.mem_cons_of_mem _ hp))).rely (I.job_job hne hg)

/-- The invariant rule. -/
theorem Invariant.holds {c c' : Workers E ε M J σ} (h : I.Holds c) (hr : Reach Y c c') : I.Holds c' := by
  induction hr with
  | refl => exact h
  | step _ hs ih => exact ih.step I hs
  | start _ ho ih => exact ⟨ih.nodup, I.start ih.main ho, ih.jobs⟩
  | env _ he ih => exact ⟨ih.nodup, Invariant.MainOk.rely I ih.main (I.env_main he), fun e hj =>
      (ih.jobs e hj).rely (I.env_job he)⟩
  | stop _ ih => exact ⟨List.nodup_nil, I.stopped (ih.kept I), fun _ hj => (nomatch hj)⟩

end invariant

end Workers
