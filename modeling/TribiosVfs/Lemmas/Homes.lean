import TribiosVfs.Lemmas.Frames
import TribiosVfs.Lemmas.Records

/-!
# Where a Workspace lives

The directory of a Workspace holds its upper tree and its recovery directory, and an engine changes nothing outside of it.
`Home` is what an engine relies on there: the upper directory is a directory, the recovery directory is none or a directory, and no
stage lies under an id that the journal has not handed out yet.
-/

namespace TribiosVfs

/-! ## Names of stages -/

theorem decimal_digits {n : Nat} (hn : n ≠ 0) :
    decimal n = ((Nat.digits 10 n).map (fun digit => UInt8.ofNat (48 + digit))).reverse := by
  rw [decimal, if_neg hn]

theorem decimal_mem {n : Nat} {c : UInt8} (hc : c ∈ decimal n) : ∃ d < 10, c = UInt8.ofNat (48 + d) := by
  by_cases hn : n = 0
  · rw [decimal, if_pos hn, List.mem_singleton] at hc
    exact ⟨0, by decide, hc⟩
  · rw [decimal_digits hn, List.mem_reverse, List.mem_map] at hc
    obtain ⟨d, hd, rfl⟩ := hc
    exact ⟨d, Nat.digits_lt_base (by decide) hd, rfl⟩

theorem decimal_ne_nil (n : Nat) : decimal n ≠ [] := by
  by_cases hn : n = 0
  · rw [decimal, if_pos hn]
    exact List.cons_ne_nil _ _
  · rw [decimal_digits hn]
    intro h
    rw [List.reverse_eq_nil_iff, List.map_eq_nil_iff, Nat.digits_eq_nil_iff_eq_zero] at h
    exact hn h

theorem decimal_ordinary (n : Nat) : Ordinary [decimal n] := by
  have hdigit : ∀ c ∈ decimal n, c ≠ 0 ∧ c ≠ slash ∧ c ≠ 46 := by
    intro c hc
    obtain ⟨d, hd, rfl⟩ := decimal_mem hc
    interval_cases d <;> decide
  refine ⟨fun m hm => ?_, fun m hm => ?_⟩
  · rw [List.mem_singleton.mp hm]
    refine ⟨decimal_ne_nil n, ?_, ?_, fun hs => (hdigit _ hs).2.1 rfl⟩
    · intro he
      exact (hdigit 46 (by rw [he]; decide)).2.2 rfl
    · intro he
      exact (hdigit 46 (by rw [he]; decide)).2.2 rfl
  · rw [List.mem_singleton.mp hm]
    intro h0
    exact (hdigit 0 h0).1 rfl

/-- The number a decimal text stands for. -/
theorem decimal_value (n : Nat) : Nat.ofDigits 10 ((decimal n).reverse.map (fun c => c.toNat - 48)) = n := by
  have digit : ∀ d < 10, (UInt8.ofNat (48 + d)).toNat - 48 = d := by
    intro d hd
    interval_cases d <;> rfl
  by_cases hn : n = 0
  · rw [hn]
    rfl
  · rw [decimal_digits hn, List.reverse_reverse, List.map_map]
    have hid : (Nat.digits 10 n).map ((fun c : UInt8 => c.toNat - 48) ∘ fun d => UInt8.ofNat (48 + d)) =
        (Nat.digits 10 n).map id :=
      List.map_congr_left (fun d hd => digit d (Nat.digits_lt_base (by decide) hd))
    rw [hid, List.map_id, Nat.ofDigits_digits]

theorem decimal_injective : Function.Injective decimal := by
  intro n m he
  rw [← decimal_value n, he, decimal_value]

/-! ## Directories of a Workspace -/

/-- The directory of the Workspace. -/
def Engine.workspaceDir (e : Engine) : HostPath := parentPath e.upperDir

/-- The upper directory lies in the Workspace's directory beside `recovery`, and the Base directory lies elsewhere. -/
structure Engine.Placed (e : Engine) : Prop where
  upper : Ordinary e.upperDir
  upper_ne : e.upperDir ≠ []
  apart : e.upperDir.getLast? ≠ some recoveryName
  base : Ordinary e.baseDir
  base_ne : e.baseDir ≠ []
  base_out : ¬e.workspaceDir <+: e.baseDir
  base_above : ¬e.baseDir <+: e.workspaceDir

namespace Engine.Placed

variable {e : Engine} (h : e.Placed)

include h

theorem upper_eq : ∃ x, e.upperDir = e.workspaceDir ++ [x] ∧ x ≠ recoveryName := by
  refine ⟨e.upperDir.getLast h.upper_ne, (List.dropLast_append_getLast h.upper_ne).symm, fun he => h.apart ?_⟩
  rw [List.getLast?_eq_some_getLast h.upper_ne, he]

theorem own_upper {q : HostPath} (hq : e.upperDir <+: q) : e.workspaceDir <+: q := by
  obtain ⟨x, hx, -⟩ := h.upper_eq
  exact (hx ▸ List.prefix_append e.workspaceDir [x]).trans hq

omit h in
theorem own_recovery {q : HostPath} (hq : e.recoveryDir <+: q) : e.workspaceDir <+: q :=
  (List.prefix_append e.workspaceDir [recoveryName]).trans hq

/-- The upper tree and the recovery directory do not meet. -/
theorem not_both {q : HostPath} (hu : e.upperDir <+: q) (hr : e.recoveryDir <+: q) : False := by
  obtain ⟨x, hx, hne⟩ := h.upper_eq
  have hlen : e.upperDir.length = e.recoveryDir.length := by
    rw [hx, Engine.recoveryDir, Engine.workspaceDir]
    simp
  have heq := (List.prefix_of_prefix_length_le hu hr hlen.le).eq_of_length hlen
  rw [hx] at heq
  exact hne (List.cons.inj (List.append_cancel_left heq)).1

theorem workspaceDir_ordinary : Ordinary e.workspaceDir := h.upper.of_initial (List.dropLast_prefix _)

theorem recovery_ordinary : Ordinary e.recoveryDir := h.workspaceDir_ordinary.append (by decide)

omit h in
theorem recovery_ne : e.recoveryDir ≠ [] := by simp [Engine.recoveryDir]

theorem stage_ordinary (id : Nat) : Ordinary (e.stagePath id) := h.recovery_ordinary.append (decimal_ordinary id)

omit h in
theorem recovery_stage (id : Nat) : e.recoveryDir <+: e.stagePath id := List.prefix_append _ _

omit h in
/-- Stages of different records do not meet. -/
theorem stage_apart {id id' : Nat} (hs : e.stagePath id <+: e.stagePath id') : id = id' := by
  have heq := hs.eq_of_length (by simp [Engine.stagePath])
  exact decimal_injective (List.cons.inj (List.append_cancel_left heq)).1

/-- The Base tree lies outside of the Workspace. -/
theorem base_apart {q : HostPath} (hb : e.baseDir <+: q) (hw : e.workspaceDir <+: q) : False := by
  rcases List.prefix_or_prefix_of_prefix hb hw with hc | hc
  · exact h.base_above hc
  · exact h.base_out hc

end Engine.Placed

/-! ## What an engine relies on -/

/-- What an engine finds where its Workspace lives. -/
structure Home (e : Engine) (w : World) : Prop where
  placed : e.Placed
  wf : w.host.tree.WF
  upper : isDirAt w.host.tree e.upperDir = true
  base : isDirAt w.host.tree e.baseDir = true
  recovery : ∀ n, w.host.tree.get e.recoveryDir = some n → n.isDir = true
  fresh : ∀ id, w.store.visible.nextId ≤ id → w.host.tree.get (e.stagePath id) = none

/-- `lstat` of a clear path answers what the tree holds there. -/
theorem lstat_clear {h : Host} (hw : h.tree.WF) {q : HostPath} (hc : Clear h.tree q) :
    (h.lstat q).1.toOption = h.tree.get q := by
  have := (lstat_plain hw (isDirAt_nil h.tree) (p := q) (by simpa using hc.ordinary) (by simpa using hc.ne_nil) hc.plain).2
  simpa using this

/-! ## One call -/

theorem Tables.Settles.nextId {t t' : Tables} {id : Nat} (h : Tables.Settles id t t') : t'.nextId = t.nextId := by
  rcases h with h | ⟨t₁, h, rfl⟩
  · exact h.nextId
  · exact h.nextId

theorem exec_nextId {β : Type} (c : Call β) (w : World) : w.store.visible.nextId ≤ (exec c w).2.store.visible.nextId := by
  by_cases hk : c.keepsRecords = true
  · exact (exec_same hk w).nextId.ge
  · cases c <;> try exact absurd rfl hk
    case beginRecoveryOperation o =>
      simp only [exec, Store.visible_update, Tables.beginRecoveryOperation]
      exact Nat.le_succ _
    case finishRecoveryOperation o => exact (Store.finish_settles _ _ _).1.nextId.ge
    case abandonRecoveryOperation id =>
      simp [exec, World.onStore, Store.visible_update, Tables.abandonRecoveryOperation]
    case saveWorkspaceRecord record =>
      simp [exec, World.onStore, Store.visible_update, Tables.saveWorkspaceRecord]
    case setWorkspaceState name state =>
      simp [exec, World.onStore, Store.visible_update, Tables.setWorkspaceState]

theorem Store.update_closed {s : Store} (h : s.openTx = none) (f : Tables → Tables) : (s.update f).openTx = none := by
  simp [Store.update, h]

end TribiosVfs
