import TribiosVfs.Lemmas.Calls

/-!
# The Workspace records and the journal, statement by statement

`HasState` and `Pending` say what the lifecycle reads of the tables: the state of a name, and the journal records by kind, name
and id. One lemma for each statement says what it does to them; `Keyed` is what the primary keys guarantee.
-/

namespace TribiosVfs

/-- The kinds of journal records that the lifecycle writes. -/
def OperationKind.lifecycle : OperationKind → Bool
  | .workspaceCreate | .workspaceRemove => true
  | _ => false

namespace Tables

/-- A Workspace record of the name is in the state. -/
def HasState (t : Tables) (name : Name) (state : WorkspaceState) : Prop := ∃ r ∈ t.workspaces, r.name = name ∧ r.state = state

/-- A journal record of the kind, the name and the id is pending. -/
def Pending (t : Tables) (kind : OperationKind) (name : Name) (id : Nat) : Prop :=
  ∃ o ∈ t.operations, o.kind = kind ∧ o.workspace = name ∧ o.id = id

/-- What the primary keys and the `AUTOINCREMENT` counter guarantee. -/
structure Keyed (t : Tables) : Prop where
  ids : (t.operations.map (·.id)).Nodup
  below : ∀ o ∈ t.operations, o.id < t.nextId
  names : (t.workspaces.map (·.name)).Nodup

instance (t : Tables) (name : Name) (state : WorkspaceState) : Decidable (t.HasState name state) := by
  unfold HasState
  infer_instance

instance (t : Tables) (kind : OperationKind) (name : Name) (id : Nat) : Decidable (t.Pending kind name id) := by
  unfold Pending
  infer_instance

section keyed

variable {t : Tables} {name name' : Name} {state state' : WorkspaceState} {kind kind' : OperationKind} {id : Nat}

/-- An id is the id of one record. -/
theorem Keyed.pending_unique (h : t.Keyed) (hp : t.Pending kind name id) (hp' : t.Pending kind' name' id) :
    kind = kind' ∧ name = name' := by
  obtain ⟨o, ho, rfl, rfl, hid⟩ := hp
  obtain ⟨o', ho', rfl, rfl, hid'⟩ := hp'
  have : o = o' := List.inj_on_of_nodup_map h.ids ho ho' (hid.trans hid'.symm)
  rw [this]
  exact ⟨rfl, rfl⟩

theorem Keyed.pending_below (h : t.Keyed) (hp : t.Pending kind name id) : id < t.nextId := by
  obtain ⟨o, ho, -, -, rfl⟩ := hp
  exact h.below o ho

/-- A name has one record. -/
theorem Keyed.state_unique (h : t.Keyed) (hs : t.HasState name state) (hs' : t.HasState name state') : state = state' := by
  obtain ⟨r, hr, hn, rfl⟩ := hs
  obtain ⟨r', hr', hn', rfl⟩ := hs'
  rw [List.inj_on_of_nodup_map h.names hr hr' (hn.trans hn'.symm)]

theorem load_some {record : WorkspaceRecord} (h : t.loadWorkspaceRecord name = some record) :
    record ∈ t.workspaces ∧ record.name = name :=
  ⟨List.mem_of_find?_eq_some h, by simpa using List.find?_some h⟩

theorem hasState_of_load {record : WorkspaceRecord} (h : t.loadWorkspaceRecord name = some record) :
    t.HasState name record.state := ⟨record, (load_some h).1, (load_some h).2, rfl⟩

theorem not_hasState_of_load (h : t.loadWorkspaceRecord name = none) : ¬t.HasState name state := by
  rintro ⟨r, hr, hn, -⟩
  exact (List.find?_eq_none.mp h r hr) (by simpa using hn)

end keyed

section statements

variable (t : Tables)

@[simp] theorem hasState_begin (operation : RecoveryOperation) (name : Name) (state : WorkspaceState) :
    (t.beginRecoveryOperation operation).HasState name state ↔ t.HasState name state := Iff.rfl

@[simp] theorem hasState_phase (id : Nat) (phase : RecoveryPhase) (name : Name) (state : WorkspaceState) :
    (t.setRecoveryOperationPhase id phase).HasState name state ↔ t.HasState name state := Iff.rfl

@[simp] theorem hasState_abandon (id : Nat) (name : Name) (state : WorkspaceState) :
    (t.abandonRecoveryOperation id).HasState name state ↔ t.HasState name state := Iff.rfl

@[simp] theorem hasState_save (record : WorkspaceRecord) (name : Name) (state : WorkspaceState) :
    (t.saveWorkspaceRecord record).HasState name state ↔
      (name = record.name ∧ state = record.state) ∨ (name ≠ record.name ∧ t.HasState name state) := by
  unfold HasState saveWorkspaceRecord
  simp only [List.mem_append, List.mem_filter, decide_eq_true_eq, List.mem_singleton]
  constructor
  · rintro ⟨r, ⟨hr, hne⟩ | rfl, rfl, rfl⟩
    · exact Or.inr ⟨hne, r, hr, rfl, rfl⟩
    · exact Or.inl ⟨rfl, rfl⟩
  · rintro (⟨rfl, rfl⟩ | ⟨hne, r, hr, rfl, rfl⟩)
    · exact ⟨_, Or.inr rfl, rfl, rfl⟩
    · exact ⟨r, Or.inl ⟨hr, hne⟩, rfl, rfl⟩

@[simp] theorem hasState_setState (name' : Name) (state' : WorkspaceState) (name : Name) (state : WorkspaceState) :
    (t.setWorkspaceState name' state').HasState name state ↔
      (name ≠ name' ∧ t.HasState name state) ∨ (name = name' ∧ state = state' ∧ ∃ s, t.HasState name s) := by
  unfold HasState setWorkspaceState
  simp only [List.mem_map]
  constructor
  · rintro ⟨_, ⟨r, hr, rfl⟩, hn, hs⟩
    by_cases hr' : r.name = name'
    · rw [if_pos hr'] at hn hs
      exact Or.inr ⟨hn.symm.trans hr', hs.symm, r.state, r, hr, hn, rfl⟩
    · rw [if_neg hr'] at hn hs
      exact Or.inl ⟨hn ▸ hr', r, hr, hn, hs⟩
  · rintro (⟨hne, r, hr, rfl, rfl⟩ | ⟨rfl, rfl, _, r, hr, rfl, -⟩)
    · exact ⟨_, ⟨r, hr, rfl⟩, by rw [if_neg hne], by rw [if_neg hne]⟩
    · exact ⟨_, ⟨r, hr, rfl⟩, by rw [if_pos rfl], by rw [if_pos rfl]⟩

@[simp] theorem hasState_duration (name' : Name) (us : Int) (name : Name) (state : WorkspaceState) :
    (t.setWorkspaceReclamationDuration name' us).HasState name state ↔ t.HasState name state := by
  unfold HasState setWorkspaceReclamationDuration
  simp only [List.mem_map]
  constructor
  · rintro ⟨_, ⟨r, hr, rfl⟩, hn, hs⟩
    exact ⟨r, hr, by split at hn <;> exact hn, by split at hs <;> exact hs⟩
  · rintro ⟨r, hr, hn, hs⟩
    exact ⟨_, ⟨r, hr, rfl⟩, by split <;> exact hn, by split <;> exact hs⟩

@[simp] theorem hasState_clear (workspace name : Name) (state : WorkspaceState) :
    (t.clearTombstones workspace).HasState name state ↔ t.HasState name state := Iff.rfl

@[simp] theorem pending_begin (operation : RecoveryOperation) (kind : OperationKind) (name : Name) (id : Nat) :
    (t.beginRecoveryOperation operation).Pending kind name id ↔
      t.Pending kind name id ∨ (operation.kind = kind ∧ operation.workspace = name ∧ t.nextId = id) := by
  unfold Pending beginRecoveryOperation
  simp only [List.mem_append, List.mem_singleton]
  constructor
  · rintro ⟨o, ho | rfl, hk, hn, hi⟩
    · exact Or.inl ⟨o, ho, hk, hn, hi⟩
    · exact Or.inr ⟨hk, hn, hi⟩
  · rintro (⟨o, ho, hk, hn, hi⟩ | ⟨hk, hn, hi⟩)
    · exact ⟨o, Or.inl ho, hk, hn, hi⟩
    · exact ⟨_, Or.inr rfl, hk, hn, hi⟩

@[simp] theorem pending_phase (id' : Nat) (phase : RecoveryPhase) (kind : OperationKind) (name : Name) (id : Nat) :
    (t.setRecoveryOperationPhase id' phase).Pending kind name id ↔ t.Pending kind name id := by
  unfold Pending setRecoveryOperationPhase
  simp only [List.mem_map]
  constructor
  · rintro ⟨_, ⟨o, ho, rfl⟩, hk, hn, hi⟩
    exact ⟨o, ho, by split at hk <;> exact hk, by split at hn <;> exact hn, by split at hi <;> exact hi⟩
  · rintro ⟨o, ho, hk, hn, hi⟩
    exact ⟨_, ⟨o, ho, rfl⟩, by split <;> exact hk, by split <;> exact hn, by split <;> exact hi⟩

@[simp] theorem pending_abandon (id' : Nat) (kind : OperationKind) (name : Name) (id : Nat) :
    (t.abandonRecoveryOperation id').Pending kind name id ↔ t.Pending kind name id ∧ id ≠ id' := by
  unfold Pending abandonRecoveryOperation
  simp only [List.mem_filter, decide_eq_true_eq]
  constructor
  · rintro ⟨o, ⟨ho, hne⟩, hk, hn, rfl⟩
    exact ⟨⟨o, ho, hk, hn, rfl⟩, hne⟩
  · rintro ⟨⟨o, ho, hk, hn, rfl⟩, hne⟩
    exact ⟨o, ⟨ho, hne⟩, hk, hn, rfl⟩

@[simp] theorem pending_save (record : WorkspaceRecord) (kind : OperationKind) (name : Name) (id : Nat) :
    (t.saveWorkspaceRecord record).Pending kind name id ↔ t.Pending kind name id := Iff.rfl

@[simp] theorem pending_setState (name' : Name) (state : WorkspaceState) (kind : OperationKind) (name : Name) (id : Nat) :
    (t.setWorkspaceState name' state).Pending kind name id ↔ t.Pending kind name id := Iff.rfl

@[simp] theorem pending_duration (name' : Name) (us : Int) (kind : OperationKind) (name : Name) (id : Nat) :
    (t.setWorkspaceReclamationDuration name' us).Pending kind name id ↔ t.Pending kind name id := Iff.rfl

@[simp] theorem pending_clear (workspace : Name) (kind : OperationKind) (name : Name) (id : Nat) :
    (t.clearTombstones workspace).Pending kind name id ↔ t.Pending kind name id := Iff.rfl

variable {t} (h : t.Keyed)
include h

theorem Keyed.begin (operation : RecoveryOperation) : (t.beginRecoveryOperation operation).Keyed where
  ids := by
    simp only [beginRecoveryOperation, List.map_append, List.map_cons, List.map_nil]
    refine h.ids.append (List.nodup_singleton _) (fun i hi hi' => ?_)
    obtain ⟨o, ho, rfl⟩ := List.mem_map.mp hi
    exact absurd (List.mem_singleton.mp hi') (Nat.ne_of_lt (h.below o ho))
  below o ho := by
    rcases List.mem_append.mp ho with ho | ho
    · exact Nat.lt_succ_of_lt (h.below o ho)
    · rw [List.mem_singleton.mp ho]
      exact Nat.lt_succ_self _
  names := h.names

theorem Keyed.phase (id : Nat) (phase : RecoveryPhase) : (t.setRecoveryOperationPhase id phase).Keyed where
  ids := by
    have : (t.setRecoveryOperationPhase id phase).operations.map (·.id) = t.operations.map (·.id) := by
      simp only [setRecoveryOperationPhase, List.map_map]
      refine List.map_congr_left (fun o _ => ?_)
      simp only [Function.comp_apply]
      split <;> rfl
    rw [this]
    exact h.ids
  below o ho := by
    obtain ⟨o', ho', rfl⟩ := List.mem_map.mp ho
    have := h.below o' ho'
    split <;> exact this
  names := h.names

theorem Keyed.abandon (id : Nat) : (t.abandonRecoveryOperation id).Keyed where
  ids := h.ids.sublist (List.filter_sublist.map _)
  below o ho := h.below o (List.mem_of_mem_filter ho)
  names := h.names

theorem Keyed.save (record : WorkspaceRecord) : (t.saveWorkspaceRecord record).Keyed where
  ids := h.ids
  below := h.below
  names := by
    simp only [saveWorkspaceRecord, List.map_append, List.map_cons, List.map_nil]
    refine (h.names.sublist (List.filter_sublist.map _)).append (List.nodup_singleton _) (fun n hn hn' => ?_)
    obtain ⟨r, hr, rfl⟩ := List.mem_map.mp hn
    exact (of_decide_eq_true (List.mem_filter.mp hr).2) (List.mem_singleton.mp hn')

theorem Keyed.mapRecords {f : WorkspaceRecord → WorkspaceRecord} (hf : ∀ r, (f r).name = r.name) :
    Keyed { t with workspaces := t.workspaces.map f } where
  ids := h.ids
  below := h.below
  names := by
    have : (t.workspaces.map f).map (·.name) = t.workspaces.map (·.name) := by
      rw [List.map_map]
      exact List.map_congr_left (fun r _ => hf r)
    simp only
    rw [this]
    exact h.names

theorem Keyed.setState (name : Name) (state : WorkspaceState) : (t.setWorkspaceState name state).Keyed :=
  h.mapRecords (fun r => by split <;> rfl)

theorem Keyed.duration (name : Name) (us : Int) : (t.setWorkspaceReclamationDuration name us).Keyed :=
  h.mapRecords (fun r => by split <;> rfl)

theorem Keyed.tombstones (rows : List (Name × RelPath)) : Keyed { t with tombstones := rows } := ⟨h.ids, h.below, h.names⟩

end statements

/-- The tables of two moments read the same, but for tombstones and phases. -/
structure Same (t t' : Tables) : Prop where
  keyed : t.Keyed → t'.Keyed
  nextId : t'.nextId = t.nextId
  states : ∀ name state, t'.HasState name state ↔ t.HasState name state
  pending : ∀ kind name id, t'.Pending kind name id ↔ t.Pending kind name id
  rows : ∀ o ∈ t'.operations, ∃ o' ∈ t.operations, o = { o' with phase := o.phase }

/-- The tables of one moment, but for tombstones and phases, without the record of an id. -/
def Settles (id : Nat) (t t' : Tables) : Prop := Same t t' ∨ ∃ t₁, Same t t₁ ∧ t' = t₁.abandonRecoveryOperation id

theorem Same.refl (t : Tables) : Same t t := ⟨id, rfl, fun _ _ => Iff.rfl, fun _ _ _ => Iff.rfl, fun o ho => ⟨o, ho, rfl⟩⟩

theorem same_tombstones (t : Tables) (rows : List (Name × RelPath)) : Same t { t with tombstones := rows } :=
  ⟨fun h => h.tombstones rows, rfl, fun _ _ => Iff.rfl, fun _ _ _ => Iff.rfl, fun o ho => ⟨o, ho, rfl⟩⟩

theorem same_phase (t : Tables) (id : Nat) (phase : RecoveryPhase) : Same t (t.setRecoveryOperationPhase id phase) :=
  ⟨fun h => h.phase id phase, rfl, fun _ _ => Iff.rfl, fun _ _ _ => pending_phase .., fun o ho => by
    obtain ⟨o', ho', rfl⟩ := List.mem_map.mp ho
    exact ⟨o', ho', by split <;> rfl⟩⟩

theorem same_duration (t : Tables) (name : Name) (us : Int) : Same t (t.setWorkspaceReclamationDuration name us) :=
  ⟨fun h => h.duration name us, rfl, fun _ _ => hasState_duration .., fun _ _ _ => Iff.rfl, fun o ho => ⟨o, ho, rfl⟩⟩

theorem same_insert (t : Tables) (workspace : Name) (path : RelPath) : Same t (t.insertTombstone workspace path) := by
  unfold insertTombstone
  split
  · exact Same.refl t
  · exact same_tombstones t _

theorem same_finishInsert (t : Tables) (operation : RecoveryOperation) : Same t (t.finishInsert operation) := by
  unfold finishInsert
  split
  · exact same_insert t _ _
  · exact Same.refl t

theorem same_finishDrop (t : Tables) (operation : RecoveryOperation) : Same t (t.finishDrop operation) := by
  unfold finishDrop
  split
  · exact same_tombstones t _
  · exact Same.refl t

theorem Same.trans {t t' t'' : Tables} (h : Same t t') (h' : Same t' t'') : Same t t'' where
  keyed hk := h'.keyed (h.keyed hk)
  nextId := h'.nextId.trans h.nextId
  states name state := (h'.states name state).trans (h.states name state)
  pending kind name id := (h'.pending kind name id).trans (h.pending kind name id)
  rows o ho := by
    obtain ⟨o', ho', he⟩ := h'.rows o ho
    obtain ⟨o'', ho'', he'⟩ := h.rows o' ho'
    exact ⟨o'', ho'', by rw [he, he']⟩

end Tables

namespace Store

open Tables

@[simp] theorem visible_update (s : Store) (f : Tables → Tables) : (s.update f).visible = f s.visible := by
  unfold update visible
  split <;> simp_all

/-- What is committed stays, or is what the connection sees. -/
def Commits (s s' : Store) : Prop := s'.committed = s.committed ∨ s'.committed = s'.visible

theorem commits_refl (s : Store) : Commits s s := Or.inl rfl

theorem commits_update (s : Store) (f : Tables → Tables) : Commits s (s.update f) := by
  unfold update
  split
  · rename_i h
    exact Or.inr (by simp [visible, h])
  · exact Or.inl rfl

theorem rollback_settles {s : Store} (h : s.openTx = none) (fails : Bool) {t : Tables} (ht : Same s.committed t) (id : Nat) :
    Settles id s.visible (s.rollback fails t).visible ∧ Commits s (s.rollback fails t) := by
  have hv : s.visible = s.committed := by simp [visible, h]
  unfold rollback
  split
  · exact ⟨Or.inl (by rw [hv]; exact ht), Or.inl rfl⟩
  · exact ⟨Or.inl (by rw [hv]; exact Same.refl _), Or.inl rfl⟩

/-- Whichever statements of it fail, `finish_recovery_operation` drops one journal record, or none. -/
theorem finish_settles (s : Store) (f : StatementFaults) (operation : RecoveryOperation) :
    Settles operation.id s.visible (s.finishRecoveryOperation f operation).2.visible ∧
      Commits s (s.finishRecoveryOperation f operation).2 := by
  unfold finishRecoveryOperation
  split
  · exact ⟨Or.inl (Same.refl _), commits_refl s⟩
  · rename_i hopen
    have hopen : s.openTx = none := by
      cases hs : s.openTx with
      | none => rfl
      | some t => simp [hs] at hopen
    have hv : s.visible = s.committed := by simp [visible, hopen]
    have hi := same_finishInsert s.committed operation
    have hd := hi.trans (same_finishDrop _ operation)
    split
    · exact rollback_settles hopen _ (Same.refl _) _
    · dsimp only
      split
      · exact rollback_settles hopen _ hi _
      · split
        · exact rollback_settles hopen _ hd _
        · split
          · exact ⟨Or.inr ⟨_, hv ▸ hd, rfl⟩, Or.inl rfl⟩
          · exact ⟨Or.inl (by rw [hv]; exact Same.refl _), Or.inl rfl⟩
          · exact ⟨Or.inr ⟨_, hv ▸ hd, rfl⟩, Or.inr rfl⟩

end Store

/-! ## Calls -/

/-- The calls that change no state of a Workspace record, and no journal record but its phase. -/
def Call.keepsRecords : {β : Type} → Call β → Bool
  | _, .beginRecoveryOperation _ => false
  | _, .finishRecoveryOperation _ => false
  | _, .abandonRecoveryOperation _ => false
  | _, .saveWorkspaceRecord _ => false
  | _, .setWorkspaceState _ _ => false
  | _, _ => true

theorem exec_commits {β : Type} (c : Call β) (w : World) : Store.Commits w.store (exec c w).2.store := by
  by_cases hc : c.isStore = true
  · cases c <;> first
      | (cases hc; done)
      | exact Store.commits_refl _
      | exact Store.commits_update _ _
      | exact (Store.finish_settles _ _ _).2
  · rw [exec_store (by simpa using hc) w]
    exact Store.commits_refl _

/-- Whatever a call does, what is committed stays, or is what the connection sees. -/
theorem step_commits {F : Faults} {β : Type} {c : Call β} {w w' : World} {r : Except Errno β}
    (h : (hosts F).step c w r w') : Store.Commits w.store w'.store := by
  rcases h with h | ⟨-, -, h⟩
  · rw [show w' = (exec c w).2 by rw [h]]
    exact exec_commits c w
  · cases h with
    | error => exact Store.commits_refl _
    | copy => exact Store.commits_refl _
    | write p data offset n => exact exec_commits _ w
    | finish operation f => exact (Store.finish_settles _ _ _).2

theorem exec_same {β : Type} {c : Call β} (hc : c.keepsRecords = true) (w : World) :
    Tables.Same w.store.visible (exec c w).2.store.visible := by
  by_cases hs : c.isStore = true
  · cases c <;> first
      | (cases hc; done)
      | (cases hs; done)
      | exact Tables.Same.refl _
      | (simp only [exec, World.onStore, Store.visible_update]; first
          | exact Tables.same_phase _ _ _
          | exact Tables.same_duration _ _ _
          | exact Tables.same_tombstones _ _)
  · rw [exec_store (by simpa using hs) w]
    exact Tables.Same.refl _

theorem step_same {F : Faults} {β : Type} {c : Call β} {w w' : World} {r : Except Errno β} (hc : c.keepsRecords = true)
    (h : (hosts F).step c w r w') : Tables.Same w.store.visible w'.store.visible := by
  rcases h with h | ⟨-, -, h⟩
  · rw [show w' = (exec c w).2 by rw [h]]
    exact exec_same hc w
  · cases h with
    | error => exact Tables.Same.refl _
    | copy => exact Tables.Same.refl _
    | write p data offset n => exact @exec_same Nat (.pwrite p (data.take n) offset) rfl w
    | finish => cases hc

/-- The journal record that a call finishes. -/
def Call.finishes : {β : Type} → Call β → Option RecoveryOperation
  | _, .finishRecoveryOperation operation => some operation
  | _, _ => none

/-- `finish_recovery_operation`, whatever fails in it. -/
theorem step_finish {F : Faults} {β : Type} {c : Call β} {operation : RecoveryOperation} {w w' : World} {r : Except Errno β}
    (hc : c.finishes = some operation) (h : (hosts F).step c w r w') :
    Tables.Settles operation.id w.store.visible w'.store.visible := by
  rcases h with h | ⟨-, -, h⟩
  · rw [show w' = (exec c w).2 by rw [h]]
    cases c <;> first
      | (cases hc; done)
      | (cases hc; exact (Store.finish_settles _ _ _).1)
  · cases h with
    | error => exact Or.inl (Tables.Same.refl _)
    | copy => cases hc
    | write => cases hc
    | finish _ f =>
      cases hc
      exact (Store.finish_settles _ _ _).1

theorem Tables.Keyed.settles {t t' : Tables} {id : Nat} (h : t.Keyed) (hs : Tables.Settles id t t') : t'.Keyed := by
  rcases hs with hs | ⟨t₁, hs, rfl⟩
  · exact hs.keyed h
  · exact (hs.keyed h).abandon id

theorem exec_keyed {β : Type} (c : Call β) {w : World} (h : w.store.visible.Keyed) : (exec c w).2.store.visible.Keyed := by
  by_cases hk : c.keepsRecords = true
  · exact (exec_same hk w).keyed h
  · cases c <;> try exact absurd rfl hk
    case beginRecoveryOperation o => simpa only [exec, Store.visible_update] using h.begin o
    case finishRecoveryOperation o => exact h.settles (Store.finish_settles _ _ _).1
    case abandonRecoveryOperation id => simpa only [exec, World.onStore, Store.visible_update] using h.abandon id
    case saveWorkspaceRecord record => simpa only [exec, World.onStore, Store.visible_update] using h.save record
    case setWorkspaceState name state => simpa only [exec, World.onStore, Store.visible_update] using h.setState name state

/-- Every call keeps what the primary keys guarantee. -/
theorem step_keyed {F : Faults} {β : Type} {c : Call β} {w w' : World} {r : Except Errno β} (hs : (hosts F).step c w r w')
    (h : w.store.visible.Keyed) : w'.store.visible.Keyed := by
  rcases hs with hs | ⟨-, -, hs⟩
  · rw [show w' = (exec c w).2 by rw [hs]]
    exact exec_keyed c h
  · cases hs with
    | error => exact h
    | copy => exact h
    | write p data offset n => exact h
    | finish o f => exact h.settles (Store.finish_settles _ _ _).1

/-- What the primary keys guarantee, of what is committed too. -/
structure World.Keyed (w : World) : Prop where
  visible : w.store.visible.Keyed
  committed : w.store.committed.Keyed

theorem World.Keyed.step {F : Faults} {β : Type} {c : Call β} {w w' : World} {r : Except Errno β} (h : w.Keyed)
    (hs : (hosts F).step c w r w') : w'.Keyed := by
  have hv := step_keyed hs h.visible
  refine ⟨hv, ?_⟩
  rcases step_commits hs with he | he
  · rw [he]
    exact h.committed
  · rw [he]
    exact hv

end TribiosVfs
