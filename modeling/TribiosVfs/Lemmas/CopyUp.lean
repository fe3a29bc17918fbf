import TribiosVfs.Lemmas.Publication
import TribiosVfs.Lemmas.View

/-!
# Copying up directories

`create_missing_upper_parent_directories`, run alone with no call failing: it adds directories to the upper tree where the view has
one already, forgets the listings they are seen in, and changes nothing else. It fails when the view has no directory above the
path.
-/

namespace TribiosVfs

open PublicationAux ViewAux

/-! ## The engine's memory -/

/-- What `forget_cached_directory_entries` leaves. -/
def Engine.forget (e : Engine) (r : RelPath) : Engine :=
  { e with directoryEntriesCache := e.directoryEntriesCache.filter (fun cached =>
      !(cached.1 == parentOf r || isAtOrUnder r cached.1)) }

/-- Listings are forgotten: all those that an entry in a set of paths is seen in, or that lie at or beneath such an entry. -/
def Forgets (R : RelPath → Prop) (e e' : Engine) : Prop :=
  ∀ x ∈ e'.directoryEntriesCache, x ∈ e.directoryEntriesCache ∧
    (x.1.Canonical → ∀ q, R q → x.1 ≠ parentOf q ∧ ¬q <+: x.1)

theorem Forgets.trans {R R' : RelPath → Prop} {e e' e'' : Engine} (h : Forgets R e e') (h' : Forgets R' e' e'') :
    Forgets (fun q => R q ∨ R' q) e e'' := by
  intro x hx
  obtain ⟨hx', hR'⟩ := h' x hx
  obtain ⟨hx'', hR⟩ := h x hx'
  exact ⟨hx'', fun hc q hq => hq.elim (hR hc q) (hR' hc q)⟩

theorem Forgets.mono {R R' : RelPath → Prop} {e e' : Engine} (h : Forgets R e e') (hR : ∀ q, R' q → R q) : Forgets R' e e' :=
  fun x hx => ⟨(h x hx).1, fun hc q hq => (h x hx).2 hc q (hR q hq)⟩

theorem forget_forgets (e : Engine) {r : RelPath} (hr : r.Canonical) (hne : r ≠ []) : Forgets (r <+: ·) e (e.forget r) := by
  intro x hx
  obtain ⟨hmem, hkeep⟩ := List.mem_filter.mp hx
  rw [Bool.not_eq_true', Bool.or_eq_false_iff] at hkeep
  refine ⟨hmem, fun hc q hq => ?_⟩
  have hout : ¬r <+: x.1 := by
    rw [← isAtOrUnder_iff hr hne hc, hkeep.2]
    exact Bool.false_ne_true
  refine ⟨fun hp => ?_, fun hp => hout (hq.trans hp)⟩
  by_cases heq : q = r
  · rw [← heq, hp, beq_self_eq_true] at hkeep
    exact Bool.noConfusion hkeep.1
  · obtain ⟨s, rfl⟩ := hq
    refine hout ?_
    rw [hp, parentOf, List.dropLast_append_of_ne_nil (fun h0 => heq (by rw [h0, List.append_nil]))]
    exact List.prefix_append _ _

/-! ## What is kept of the layers -/

section layers

variable {e : Engine} {R : HostPath → Prop} {w w' : World}

theorem Kept.upper (h : Kept e R w w') (hp : e.Placed) {p : RelPath} (hR : ¬R (e.upperPath p)) :
    e.upper w'.host.tree p = e.upper w.host.tree p := by
  have hown : e.workspaceDir <+: e.upperPath p := hp.own_upper (List.prefix_append _ _)
  have := h.look _ hR
  rw [Tree.look, Tree.look, if_pos hown, if_pos hown] at this
  exact this

theorem Kept.get_base (h : Kept e R w w') (hp : e.Placed) (hR : ∀ q, R q → e.workspaceDir <+: q) (p : RelPath) :
    w'.host.tree.get (e.basePath p) = w.host.tree.get (e.basePath p) := by
  have hout : ¬e.workspaceDir <+: e.basePath p := fun hc => hp.base_apart (List.prefix_append _ _) hc
  have := h.look (e.basePath p) (fun hr => hout (hR _ hr))
  rw [Tree.look, Tree.look, if_neg hout, if_neg hout] at this
  exact this

theorem Kept.base (h : Kept e R w w') (hp : e.Placed) (hR : ∀ q, R q → e.workspaceDir <+: q) :
    e.base w'.host.tree = e.base w.host.tree := by
  funext p
  rw [Engine.base, h.get_base hp hR]
  rfl

end layers

/-! ## One directory -/

/-- Directories of the view have been copied up on the way to a path, and nothing else has changed. -/
structure Carried (e : Engine) (w : World) (r : RelPath) (e' : Engine) (w' : World) : Prop where
  kept : Kept e (fun q => ∃ a, q = e.upperPath a ∧ a <+: r ∧ a ≠ r ∧ e.upper w.host.tree a = none ∧
    e.upper w'.host.tree a ≠ none) w w'
  ready : Ready e w'
  added : ∀ a, e.upper w.host.tree a = none → ∀ n, e.upper w'.host.tree a = some n →
    n.isDir = true ∧ ∃ m, e.view w.host.tree a = some m ∧ m.isDir = true ∧
      n.attrs.perm = (w.host.maskPerm m.attrs.perm &&& 1023) ||| groupBit w'.host.tree (e.upperPath (parentOf a))
  memory : e' = { e with directoryEntriesCache := e'.directoryEntriesCache }
  forgets : Forgets (fun q => e.upper w.host.tree q = none ∧ e.upper w'.host.tree q ≠ none) e e'

namespace Carried

variable {e e' e'' : Engine} {w w' w'' : World} {r : RelPath}

theorem refl (hr : Ready e w) : Carried e w r e w where
  kept := Kept.refl hr.home.wf
  ready := hr
  added a ha n hn := by
    rw [ha] at hn
    cases hn
  memory := rfl
  forgets x hx := ⟨hx, fun _ q hq => absurd hq.1 hq.2⟩

theorem upper_some (h : Carried e w r e' w') {a : RelPath} (ha : e.upper w.host.tree a ≠ none) :
    e.upper w'.host.tree a = e.upper w.host.tree a := by
  refine h.kept.upper h.ready.home.placed ?_
  rintro ⟨b, hb, -, -, hnone, -⟩
  rw [Engine.upperPath, Engine.upperPath, List.append_cancel_left_eq] at hb
  exact ha (hb ▸ hnone)

theorem upper_or (h : Carried e w r e' w') (a : RelPath) : e.upper w'.host.tree a = e.upper w.host.tree a ∨
    (a <+: r ∧ a ≠ r ∧ e.upper w.host.tree a = none ∧ e.upper w'.host.tree a ≠ none) := by
  by_cases hc : ∃ b, e.upperPath a = e.upperPath b ∧ b <+: r ∧ b ≠ r ∧ e.upper w.host.tree b = none ∧
    e.upper w'.host.tree b ≠ none
  · obtain ⟨b, hb, hrest⟩ := hc
    rw [Engine.upperPath, Engine.upperPath, List.append_cancel_left_eq] at hb
    exact Or.inr (hb ▸ hrest)
  · exact Or.inl (h.kept.upper h.ready.home.placed hc)

theorem base_eq (h : Carried e w r e' w') : e.base w'.host.tree = e.base w.host.tree :=
  h.kept.base h.ready.home.placed (by
    rintro q ⟨a, rfl, -⟩
    exact h.ready.home.placed.own_upper (List.prefix_append _ _))

/-- Copying up changes the contents of nothing that shows. -/
theorem view_contents (h : Carried e w r e' w') (p : RelPath) :
    (e.view w'.host.tree p).map Node.contents = (e.view w.host.tree p).map Node.contents := by
  have hlower : ∀ u, u = e.upper w.host.tree p → e.upper w'.host.tree p = u →
      e.view w'.host.tree p = e.view w.host.tree p := by
    intro u hu hu'
    rw [Engine.view, Engine.view, Forest.overlay, Forest.overlay, hu', hu, h.base_eq]
  rcases h.upper_or p with he | ⟨-, -, hnone, hsome⟩
  · rw [hlower _ rfl he]
  · obtain ⟨n, hn⟩ := Option.ne_none_iff_exists'.mp hsome
    obtain ⟨hd, m, hm, hmd, -⟩ := h.added p hnone n hn
    rw [hm, Engine.view, Forest.overlay_upper hn, Option.map_some, Option.map_some, Node.contents_of_isDir hd,
      Node.contents_of_isDir hmd]

theorem view_isDir (h : Carried e w r e' w') (p : RelPath) :
    (∃ n, e.view w'.host.tree p = some n ∧ n.isDir = true) ↔ ∃ n, e.view w.host.tree p = some n ∧ n.isDir = true := by
  have hc := h.view_contents p
  cases hv : e.view w.host.tree p <;> cases hv' : e.view w'.host.tree p <;> simp_all [Node.isDir]

theorem agrees (h : Carried e w r e' w') (ha : e.Agrees w.host.tree) : e.Agrees w'.host.tree := by
  intro p n m hn hv hm
  rw [h.base_eq] at hm
  rcases h.upper_or p with he | ⟨-, -, hnone, -⟩
  · exact ha p n m (he ▸ hn) hv hm
  · obtain ⟨hd, k, hk, hkd, -⟩ := h.added p hnone n hn
    rw [Engine.view, Forest.overlay_lower hnone hv, hm, Option.some.injEq] at hk
    rw [Node.fileType, Node.fileType, Node.contents_of_isDir hd, hk, Node.contents_of_isDir hkd]

theorem unbarred (h : Carried e w r e' w') {p : RelPath} (hc : Unbarred (e.view w.host.tree) p) :
    Unbarred (e.view w'.host.tree) p := by
  intro a hap hne n hn
  have hcon := h.view_contents a
  rw [hn] at hcon
  obtain ⟨m, hm, he⟩ := Option.map_eq_some_iff.mp hcon.symm
  have := hc a hap hne m hm
  rw [Node.isLnk] at this ⊢
  rw [← he]
  exact this

/-- The upper tree has the directory above each of its entries. -/
theorem upper_parent (h : Carried e w r e' w') {a : RelPath} (ha : e.upper w'.host.tree a ≠ none) :
    e.upper w'.host.tree (parentOf a) ≠ none := by
  have hp := h.ready.home.placed
  have hs : (w'.host.tree.get (e.upperPath a)).isSome = true := by
    rw [Option.isSome_iff_ne_none]
    intro hn
    exact ha (by rw [Engine.upper, hn]; rfl)
  by_cases h0 : a = []
  · subst h0
    exact ha
  · have hdrop : (e.upperPath a).dropLast = e.upperPath (parentOf a) := List.dropLast_append_of_ne_nil h0
    obtain ⟨n, hn, -⟩ := (isDirAt_iff (upperPath_ne hp (parentOf a))).mp (hdrop ▸ h.ready.home.wf.isDirAt_parent hs)
    rw [Engine.upper, hn]
    exact Option.some_ne_none _

theorem trans (h : Carried e w r e' w') (h' : Carried e' w' r e'' w'') : Carried e w r e'' w'' := by
  have hm := h.memory
  have hup : ∀ t, e'.upper t = e.upper t := by
    intro t
    rw [hm]
    rfl
  have hpath : ∀ a, e'.upperPath a = e.upperPath a := by
    intro a
    rw [hm]
    rfl
  have hdir : e'.workspaceDir = e.workspaceDir := by
    rw [hm]
    rfl
  have hview : ∀ t, e'.view t = e.view t := by
    intro t
    rw [hm]
    rfl
  obtain ⟨hk', hr', ha', hm', hf'⟩ := h'
  have hstill : ∀ a, e.upper w'.host.tree a = none → e.upper w.host.tree a = none := by
    intro a ha
    by_contra hc
    exact hc (h.upper_some hc ▸ ha)
  have hkeep : ∀ a, e.upper w'.host.tree a ≠ none → e.upper w''.host.tree a = e.upper w'.host.tree a := by
    intro a ha
    have hsome := Carried.upper_some ⟨hk', hr', ha', hm', hf'⟩ (a := a) (by rw [hup]; exact ha)
    rw [hup, hup] at hsome
    exact hsome
  refine ⟨⟨hk'.wf, fun q hq => ?_, hk'.env.trans h.kept.env, fun hc => hk'.closed (h.kept.closed hc),
    h.kept.nextId.trans hk'.nextId, hk'.umask.trans h.kept.umask, hk'.now.trans h.kept.now⟩, ?_, ?_, ?_, ?_⟩
  · rw [← hdir]
    refine (hk'.look q ?_).trans ?_
    · rintro ⟨a, rfl, hap, hane, hnone, hsome⟩
      rw [hup] at hnone hsome
      exact hq ⟨a, hpath a, hap, hane, hstill a hnone, hsome⟩
    · rw [hdir]
      refine h.kept.look q ?_
      rintro ⟨a, rfl, hap, hane, hnone, hsome⟩
      exact hq ⟨a, rfl, hap, hane, hnone, by rw [hkeep a hsome]; exact hsome⟩
  · exact hr'.of_dirs (by rw [hm]) (by rw [hm])
  · intro a hnone n hn
    by_cases hsome : e.upper w'.host.tree a = none
    · obtain ⟨hd, m, hm', hmd, hperm⟩ := ha' a (by rw [hup]; exact hsome) n (by rw [hup]; exact hn)
      have hsame : e.view w'.host.tree a = e.view w.host.tree a := by
        rw [Engine.view, Engine.view, Forest.overlay, Forest.overlay, hsome, hnone, h.base_eq]
      rw [hview, hsame] at hm'
      rw [Host.maskPerm, h.kept.umask, hpath] at hperm
      exact ⟨hd, m, hm', hmd, hperm⟩
    · rw [hkeep a hsome] at hn
      obtain ⟨hd, m, hm', hmd, hperm⟩ := h.added a hnone n hn
      -- the directory above was there by then, and has kept its bits
      have hbit := groupBit_of_lasting (hkeep (parentOf a) (h.upper_parent hsome))
      exact ⟨hd, m, hm', hmd, hperm.trans (congrArg _ hbit.symm)⟩
  · rw [hm', hm]
  · refine (h.forgets.trans hf').mono (fun q hq => ?_)
    by_cases hsome : e.upper w'.host.tree q = none
    · exact Or.inr ⟨by rw [hup]; exact hsome, by rw [hup]; exact hq.2⟩
    · exact Or.inl ⟨hq.1, hsome⟩

end Carried

namespace CopyUpAux

section round

variable {e : Engine} {w : World} {r dir : RelPath}

/-- A directory made in the upper tree where the view has one. -/
theorem carried_mkdir (hr : Ready e w) (ho : Ordinary dir) (hne : dir ≠ []) (hdr : dir <+: r) (hdne : dir ≠ r)
    (hd : isDirAt w.host.tree (e.upperPath dir).dropLast = true) (hn : w.host.tree.get (e.upperPath dir) = none) {m : Node}
    (hm : e.view w.host.tree dir = some m) (hmd : m.isDir = true) (perm : Nat) (hperm : perm = w.host.directoryPerm (e.upperPath dir).dropLast m.attrs.perm) :
    Carried e w r (e.forget dir) { w with host := w.host.addEntry (e.upperPath dir) .dir perm } := by
  have hp := hr.home.placed
  have hpne := upperPath_ne hp dir
  have hpo := upper_ordinary hp ho
  have hedit := edit_addEntry hr.home.wf hpne hpo hd hn .dir perm
  have hbelow : ∀ s, s ≠ [] → (w.host.addEntry (e.upperPath dir) .dir perm).tree.get (e.upperPath dir ++ s) = none :=
    fun s hs => addEntry_beneath hr.home.wf hpne hn .dir perm hs
  have hself : (w.host.addEntry (e.upperPath dir) .dir perm).tree.get (e.upperPath dir) =
      some ⟨.dir, ⟨w.host.nextIno, perm, w.host.now, w.host.now, w.host.now⟩⟩ := by
    rw [addEntry_get _ hpne, if_pos rfl]
  have hold : e.upper w.host.tree dir = none := by
    rw [Engine.upper, hn]
    rfl
  have hnew : e.upper (w.host.addEntry (e.upperPath dir) .dir perm).tree dir ≠ none := by
    rw [Engine.upper, hself]
    exact Option.some_ne_none _
  have hlook : ∀ q, q ≠ e.upperPath dir →
      (w.host.addEntry (e.upperPath dir) .dir perm).tree.look e.workspaceDir q = w.host.tree.look e.workspaceDir q := by
    intro q hq
    by_cases hpq : e.upperPath dir <+: q
    · obtain ⟨s, rfl⟩ := hpq
      have hs : s ≠ [] := by
        rintro rfl
        exact hq (List.append_nil _)
      rw [Tree.look, Tree.look, hbelow s hs, hr.home.wf.rooted.get_under_none hpne hn (List.prefix_append _ _)]
    · exact hedit.look (own_upper_parent hp dir).1 hpq
  have hkept : Kept e (· = e.upperPath dir) w { w with host := w.host.addEntry (e.upperPath dir) .dir perm } :=
    ⟨hedit.wf, hlook, rfl, fun h => h, le_rfl, rfl, rfl⟩
  have honly : ∀ a, a ≠ dir → e.upper (w.host.addEntry (e.upperPath dir) .dir perm).tree a = e.upper w.host.tree a := by
    intro a ha
    refine hkept.upper hp (fun h => ha ?_)
    rwa [Engine.upperPath, Engine.upperPath, List.append_cancel_left_eq] at h
  refine ⟨hkept.mono (fun q hq => ⟨dir, hq, hdr, hdne, hold, hnew⟩), ?_, fun a ha n hn' => ?_, rfl,
    (forget_forgets e ho.1 hne).mono (fun q hq => ?_)⟩
  · refine Ready.of_dirs (e := e) ⟨⟨hp, hedit.wf, ?_, ?_, fun n hn' => ?_, fun id hid => ?_⟩, hr.quiet, hr.closed⟩ rfl rfl
    · refine (hkept.isDirAt_eq (fun h => hne ?_)).trans hr.home.upper
      rw [Engine.upperPath] at h
      exact List.self_eq_append_right.mp h
    · refine (hkept.isDirAt_eq (fun h => ?_)).trans hr.home.base
      exact hp.base_apart (List.prefix_refl _) (hp.own_upper (h ▸ List.prefix_append _ _))
    · have hrec : e.recoveryDir ≠ e.upperPath dir := fun h => not_recovery_upper hp dir (h ▸ List.prefix_refl _)
      have hc := contents_of_look (hkept.look e.recoveryDir hrec)
      change (w.host.addEntry (e.upperPath dir) .dir perm).tree.get e.recoveryDir = some n at hn'
      rw [hn'] at hc
      obtain ⟨k, hk, hkc⟩ := Option.map_eq_some_iff.mp hc.symm
      rw [Node.isDir, ← hkc]
      exact hr.home.recovery k hk
    · have hst : e.stagePath id ≠ e.upperPath dir := fun h =>
        not_recovery_upper hp dir (h ▸ Engine.Placed.recovery_stage id)
      exact (hkept.get_none hst).mpr (hr.home.fresh id hid)
  · by_cases hadir : a = dir
    · subst hadir
      change e.upper (w.host.addEntry (e.upperPath a) .dir perm).tree a = some n at hn'
      rw [Engine.upper, hself, Option.map_some, Option.some.injEq] at hn'
      have hdrop : (e.upperPath a).dropLast = e.upperPath (parentOf a) := List.dropLast_append_of_ne_nil hne
      refine ⟨by rw [← hn']; rfl, m, hm, hmd, ?_⟩
      rw [← hn', Node.lasting_perm]
      dsimp only
      rw [← hdrop, hedit.groupBit_eq, hperm, Host.directoryPerm]
    · rw [honly a hadir, ha] at hn'
      cases hn'
  · by_cases hq' : q = dir
    · exact hq' ▸ List.prefix_refl _
    · exact absurd (honly q hq' ▸ hq.1) hq.2

/-- One round of the loop of `create_missing_upper_parent_directories`. -/
theorem createUpperParentDirectory_ends (dir : RelPath) (hr : Ready e w) (ha : e.Agrees w.host.tree) (ho : Ordinary dir) (hne : dir ≠ [])
    (hc : Unbarred (e.view w.host.tree) dir) (hdr : dir <+: r) (hdne : dir ≠ r)
    (hd : isDirAt w.host.tree (e.upperPath dir).dropLast = true) :
    (createUpperParentDirectory dir).Ends e w
      (fun _ e' w' => Carried e w r e' w' ∧ isDirAt w'.host.tree (e.upperPath dir) = true ∧
        ∃ n, e.view w.host.tree dir = some n ∧ n.isDir = true)
      (fun _ e' w' => e' = e ∧ w' = w ∧ ∀ n, e.view w.host.tree dir = some n → n.isDir = false) := by
  have hp := hr.home.placed
  have hpne := upperPath_ne hp dir
  have hpo := upper_ordinary hp ho
  have hclear := clear_of_isDirAt hr.home.wf hpo hpne hd
  unfold createUpperParentDirectory
  refine EngineM.ends_bind (EngineM.ends_reads ((ends_lstatPath hr.home.wf hclear).mono (fun st w' hst => ?_) (fun _ _ hx => hx)))
    (R := fun st e' w' => st = w.host.tree.get (e.upperPath dir) ∧ e' = e ∧ w' = w) (fun st e' w' hst => ?_)
  · exact ⟨hst.1, rfl, hst.2⟩
  obtain ⟨rfl, rfl, rfl⟩ := hst
  cases hn : w'.host.tree.get (e'.upperPath dir) with
  | some st =>
    have hview : e'.view w'.host.tree dir = some st.lasting := by
      refine Forest.overlay_upper ?_
      rw [Engine.upper, hn]
      rfl
    refine EngineM.ends_refuse (fun hdir => ?_) (fun hdir => ?_)
    · rw [Bool.not_eq_false] at hdir
      exact ⟨Carried.refl hr, (isDirAt_iff hpne).mpr ⟨st, hn, hdir⟩, _, hview, st.lasting_isDir.trans hdir⟩
    · refine ⟨rfl, rfl, fun n hn' => ?_⟩
      rw [hview, Option.some.injEq] at hn'
      rw [← hn', st.lasting_isDir]
      exact hdir
  | none =>
    have hupper : e'.upper w'.host.tree dir = none := by
      rw [Engine.upper, hn]
      rfl
    have hview : e'.view w'.host.tree dir =
        (if e'.Hides dir then none else w'.host.tree.get (e'.basePath dir)).map Node.lasting := by
      rw [Engine.view, Forest.overlay, hupper, Option.none_or]
      split <;> rfl
    dsimp only
    refine EngineM.ends_bind (R := fun found e'' w'' =>
      found = (if e'.Hides dir then none else w'.host.tree.get (e'.basePath dir)) ∧ e'' = e' ∧ w'' = w')
      (EngineM.ends_reads ?_) (fun found e'' w'' hfound => ?_)
    · by_cases hv : e'.Hides dir
      · rw [if_pos hv, if_neg (fun hb => not_hides.mpr hb hv)]
        exact ends_pure ⟨rfl, rfl, rfl⟩
      · rw [if_neg hv, if_pos (not_hides.mp hv)]
        exact (ends_lstatPath hr.home.wf (clear_base (hr.home.layered ha) ho hc hv)).mono (fun _ _ h => ⟨h.1, rfl, h.2⟩) (fun _ _ hx => hx)
    obtain ⟨hfound, rfl, rfl⟩ := hfound
    rw [← hfound] at hview
    cases found with
    | none =>
      refine EngineM.ends_fail ⟨rfl, rfl, fun n hn' => ?_⟩
      rw [hview] at hn'
      cases hn'
    | some st =>
      refine EngineM.ends_bind (R := fun _ e' w' => st.isDir = true ∧ e' = e'' ∧ w' = w'')
        (EngineM.ends_refuse (fun hdir => ⟨Bool.not_eq_false _ ▸ hdir, rfl, rfl⟩) (fun hdir => ⟨rfl, rfl, fun n hn' => ?_⟩))
        (fun _ e₁ w₁ h₁ => ?_)
      · rw [hview, Option.map_some, Option.some.injEq] at hn'
        rw [← hn', st.lasting_isDir]
        exact hdir
      obtain ⟨hdir, rfl, rfl⟩ := h₁
      have hmd : st.lasting.isDir = true := st.lasting_isDir.trans hdir
      refine EngineM.ends_bind (R := fun _ e' w' => e' = e₁.forget dir ∧ w' = w₁) (EngineM.ends_modify ⟨rfl, rfl⟩)
        (fun _ e₂ w₂ h₂ => ?_)
      obtain ⟨rfl, rfl⟩ := h₂
      have hcarried := carried_mkdir hr ho hne hdr hdne hd hn hview hmd (w₂.host.directoryPerm (e₁.upperPath dir).dropLast st.attrs.perm) (by rw [Node.lasting_perm])
      have hmade : isDirAt (w₂.host.addEntry (e₁.upperPath dir) .dir (w₂.host.directoryPerm (e₁.upperPath dir).dropLast st.attrs.perm)).tree (e₁.upperPath dir) =
          true := by
        rw [isDirAt_iff hpne, addEntry_get _ hpne, if_pos rfl]
        exact ⟨_, rfl, rfl⟩
      have hmkdir : w₂.host.mkdir (e₁.upperPath dir) st.attrs.perm =
          (.ok (), w₂.host.addEntry (e₁.upperPath dir) .dir (w₂.host.directoryPerm (e₁.upperPath dir).dropLast st.attrs.perm)) := by
        rw [mkdir_real hr.home.wf hpne hpo hd, hn]
      refine EngineM.ends_bind (R := fun _ e' w' => e' = e₁.forget dir ∧
          w' = { w₂ with host := w₂.host.addEntry (e₁.upperPath dir) .dir (w₂.host.directoryPerm (e₁.upperPath dir).dropLast st.attrs.perm) })
        (EngineM.ends_reads (ends_orElseDo (X := fun _ _ => False)
          (ends_host (·.mkdir (e₁.upperPath dir) st.attrs.perm) rfl hmkdir ⟨rfl, rfl⟩) (fun _ _ hx => hx.elim)))
        (fun _ e₃ w₃ h₃ => ?_)
      obtain ⟨rfl, rfl⟩ := h₃
      refine EngineM.ends_reads (ends_orFail (X := fun _ _ => False) ((ends_fsyncDirectory hcarried.kept.wf
        (hpo.of_initial (List.dropLast_prefix _)) ?_).mono (fun _ w' hw' => ?_) (fun _ _ hx => hx)) (fun _ _ hx => hx.elim))
      · exact hcarried.kept.wf.isDirAt_initial hmade (List.dropLast_prefix _)
      · subst hw'
        exact ⟨hcarried, hmade, _, hview, hmd⟩

end round

end CopyUpAux

open CopyUpAux

/-! ## All directories above a path -/

/-- The root shows as a directory. -/
theorem view_root {e : Engine} {w : World} (hh : Home e w) : ∃ n, e.view w.host.tree [] = some n ∧ n.isDir = true := by
  obtain ⟨n, hn, hd⟩ := (isDirAt_iff hh.placed.upper_ne).mp hh.upper
  refine ⟨n.lasting, Forest.overlay_upper ?_, n.lasting_isDir.trans hd⟩
  rw [Engine.upper, Engine.upperPath, List.append_nil, hn]
  rfl

theorem createUpperParentDirectories_ends (rest : List Name) : ∀ (done : RelPath) {e : Engine} {w : World}, rest ≠ [] → Ready e w →
    e.Agrees w.host.tree → Ordinary (done ++ rest) → Unbarred (e.view w.host.tree) (done ++ rest) →
    isDirAt w.host.tree (e.upperPath done) = true → (∃ n, e.view w.host.tree done = some n ∧ n.isDir = true) →
    (createUpperParentDirectories done rest).Ends e w
      (fun _ e' w' => Carried e w (done ++ rest) e' w' ∧ isDirAt w'.host.tree (e.upperPath (done ++ rest)).dropLast = true ∧
        ∃ n, e.view w.host.tree (parentOf (done ++ rest)) = some n ∧ n.isDir = true)
      (fun _ e' w' => Carried e w (done ++ rest) e' w' ∧
        ¬∃ n, e.view w.host.tree (parentOf (done ++ rest)) = some n ∧ n.isDir = true) := by
  induction rest with
  | nil => exact fun _ _ _ h => absurd rfl h
  | cons name rest ih =>
    intro done e w _ hr ha ho hc hd hdone
    by_cases h0 : rest = []
    · subst h0
      refine EngineM.ends_pure ⟨Carried.refl hr, ?_, ?_⟩
      · rw [Engine.upperPath, ← List.append_assoc, List.dropLast_concat]
        exact hd
      · rw [parentOf, List.dropLast_concat]
        exact hdone
    · have hsplit : done ++ name :: rest = done ++ [name] ++ rest := by rw [List.append_assoc, List.singleton_append]
      have hin : done ++ [name] <+: done ++ name :: rest := by
        rw [hsplit]
        exact List.prefix_append _ _
      have hout : done ++ [name] ≠ done ++ name :: rest := by
        rw [hsplit]
        exact fun h => h0 (List.self_eq_append_right.mp h)
      have hparent : done ++ [name] <+: parentOf (done ++ name :: rest) := by
        rw [hsplit, parentOf, List.dropLast_append_of_ne_nil h0]
        exact List.prefix_append _ _
      have hunfold : createUpperParentDirectories done (name :: rest) = (do
          createUpperParentDirectory (done ++ [name])
          createUpperParentDirectories (done ++ [name]) rest) := by
        cases rest with
        | nil => exact absurd rfl h0
        | cons x rest => rfl
      rw [hunfold]
      have hround := createUpperParentDirectory_ends (r := done ++ name :: rest) (done ++ [name]) hr ha (ho.of_initial hin)
        (by simp) (fun a hap hne n hn => hc a (hap.trans hin) (fun h => by
          have hle := hap.length_le
          have hlen := congrArg List.length (hsplit ▸ h)
          rw [List.length_append] at hlen
          have := List.length_pos_of_ne_nil h0
          omega) n hn) hin hout
        (by rw [Engine.upperPath, ← List.append_assoc, List.dropLast_concat]; exact hd)
      -- a directory above the path shows only beneath directories
      refine EngineM.ends_bind (hround.mono (fun _ e₁ w₁ h₁ => h₁) (fun _ e₁ w₁ h₁ => ?_)) (fun _ e₁ w₁ h₁ => ?_)
      · obtain ⟨rfl, rfl, hno⟩ := h₁
        refine ⟨Carried.refl hr, ?_⟩
        rintro ⟨n, hn, hdir⟩
        by_cases heq : done ++ [name] = parentOf (done ++ name :: rest)
        · rw [hno n (heq ▸ hn)] at hdir
          cases hdir
        · obtain ⟨m, hm, hmd⟩ := (view_grounded (hr.home.layered ha)).ancestor (by rw [hn]; rfl) hparent heq
          rw [hno m hm] at hmd
          cases hmd
      · obtain ⟨hcar, hmade, hshown⟩ := h₁
        have hmem := hcar.memory
        have hpath : ∀ a, e₁.upperPath a = e.upperPath a := by
          intro a
          rw [hmem]
          rfl
        have hview : ∀ t, e₁.view t = e.view t := by
          intro t
          rw [hmem]
          rfl
        have hready₁ : Ready e₁ w₁ := hcar.ready.of_dirs (by rw [hmem]) (by rw [hmem])
        have hagrees₁ : e₁.Agrees w₁.host.tree := by
          rw [hmem]
          exact hcar.agrees ha
        have hnext := ih (done ++ [name]) (e := e₁) (w := w₁) h0 hready₁ hagrees₁ (hsplit ▸ ho)
          (by rw [hview, ← hsplit]; exact hcar.unbarred hc) (by rw [hpath]; exact hmade)
          (by rw [hview]; exact (hcar.view_isDir _).mpr hshown)
        rw [← hsplit, hview, hpath] at hnext
        refine hnext.mono (fun _ e₂ w₂ h₂ => ?_) (fun _ e₂ w₂ h₂ => ?_)
        · exact ⟨hcar.trans h₂.1, h₂.2.1, (hcar.view_isDir _).mp h₂.2.2⟩
        · exact ⟨hcar.trans h₂.1, fun hx => h₂.2 ((hcar.view_isDir _).mpr hx)⟩

/-- `create_missing_upper_parent_directories`: it succeeds exactly when the view has a directory above the path. -/
theorem createMissingUpperParentDirectories_ends {e : Engine} {w : World} {r : RelPath} (hr : Ready e w) (ha : e.Agrees w.host.tree)
    (ho : Ordinary r) (hc : Unbarred (e.view w.host.tree) r) :
    (createMissingUpperParentDirectories r).Ends e w
      (fun _ e' w' => Carried e w r e' w' ∧ isDirAt w'.host.tree (e.upperPath r).dropLast = true ∧
        ∃ n, e.view w.host.tree (parentOf r) = some n ∧ n.isDir = true)
      (fun _ e' w' => Carried e w r e' w' ∧ ¬∃ n, e.view w.host.tree (parentOf r) = some n ∧ n.isDir = true) := by
  by_cases h0 : r = []
  · subst h0
    refine EngineM.ends_pure ⟨Carried.refl hr, ?_, view_root hr.home⟩
    rw [Engine.upperPath, List.append_nil]
    exact workspace_isDir hr.home
  · refine createUpperParentDirectories_ends r [] h0 hr ha ho hc ?_ (view_root hr.home)
    rw [Engine.upperPath, List.append_nil]
    exact hr.home.upper

end TribiosVfs
