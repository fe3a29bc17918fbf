import TribiosVfs.Lib.PathMap

/-!
# Project-relative paths (core/paths.cpp)

A relative path is kept as the list of its segments; the text the source works with is their slash-join (`RelPath.text`), and
`RelPath.ofText` splits a text again. The view root is the empty list, whose text is the empty text.
A C string ends at its first NUL byte: `cStr` is what a system call or `sqlite3_bind_text` reads of a `std::string`.
-/

namespace TribiosVfs

abbrev Bytes := List UInt8
/-- One segment of a path. -/
abbrev Name := Bytes
/-- A Project-relative path, segment by segment. -/
abbrev RelPath := List Name

/-- Paths are compared segment by segment, byte by byte. -/
instance lawfulRelPath : LawfulBEq RelPath := inferInstance

/-- The byte `/`. -/
def slash : UInt8 := 47
/-- The byte `%`. -/
def percent : UInt8 := 37
/-- The byte `\n`. -/
def newline : UInt8 := 10
/-- The byte `\r`. -/
def carriageReturn : UInt8 := 13
/-- The segment `.`. -/
def dot : Name := [46]
/-- The segment `..`. -/
def dotdot : Name := [46, 46]

/-- `take_segment` of `normalize_relative`: what one finished segment does to the stack of segments. A `..` that would climb
past the view root is dropped. -/
def takeSegment (segments : List Name) (segment : Name) : List Name :=
  if segment = dotdot then segments.dropLast
  else if segment ≠ [] ∧ segment ≠ dot then segments ++ [segment]
  else segments

/-- The loop of `normalize_relative` over the bytes of a path. -/
def normalizeLoop : List Name → Name → Bytes → List Name
  | segments, segment, [] => takeSegment segments segment
  | segments, segment, c :: path =>
    if c = slash then normalizeLoop (takeSegment segments segment) [] path
    else normalizeLoop segments (segment ++ [c]) path

def normalizeRelative (path : Bytes) : RelPath := normalizeLoop [] [] path

def parentOf (relative : RelPath) : RelPath := relative.dropLast

def joinRelative (parent : RelPath) (name : Name) : RelPath := parent ++ [name]

/-- The text of a relative path: its segments joined by slashes. -/
def RelPath.text : RelPath → Bytes
  | [] => []
  | [s] => s
  | s :: t :: rest => s ++ slash :: RelPath.text (t :: rest)

/-- The segments between the slashes of a text. -/
def splitSlash : Bytes → List Name
  | [] => [[]]
  | c :: cs =>
    if c = slash then [] :: splitSlash cs
    else match splitSlash cs with
      | s :: rest => (c :: s) :: rest
      | [] => [[c]]

/-- The path a text stands for. -/
def RelPath.ofText (text : Bytes) : RelPath := if text = [] then [] else splitSlash text

/-- What a C string keeps of a text: the bytes before the first NUL. -/
def cStr (text : Bytes) : Bytes := text.takeWhile (· ≠ 0)

/-- What a system call reads of a path given segment by segment: it ends at the first NUL byte. -/
def cPath : List Name → List Name
  | [] => []
  | s :: rest => if 0 ∈ s then [cStr s] else s :: cPath rest

/-- `std::to_string` of a number. -/
def decimal (n : Nat) : Name :=
  if n = 0 then [48] else ((Nat.digits 10 n).map (fun digit => UInt8.ofNat (48 + digit))).reverse

/-- An absolute path as text. -/
def pathText (p : List Name) : Bytes := slash :: RelPath.text p

/-- The byte at an index. -/
def byteAt (text : Bytes) (index : Nat) : UInt8 := (text[index]?).getD 0

/-! ## Git's names -/

/-- The name `.git`. -/
def kGitDirName : Name := [46, 103, 105, 116]
/-- The name `worktrees`. -/
def worktreesName : Name := [119, 111, 114, 107, 116, 114, 101, 101, 115]
/-- The name `gitdir`. -/
def gitdirName : Name := [103, 105, 116, 100, 105, 114]
/-- The name `HEAD`. -/
def headName : Name := [72, 69, 65, 68]
/-- The name `commondir`. -/
def commondirName : Name := [99, 111, 109, 109, 111, 110, 100, 105, 114]
/-- The name `index`. -/
def indexName : Name := [105, 110, 100, 101, 120]
/-- The text `gitdir: `. -/
def gitdirMarker : Bytes := [103, 105, 116, 100, 105, 114, 58, 32]
/-- The text `ref: refs/heads/`. -/
def refsHeadsMarker : Bytes := [114, 101, 102, 58, 32, 114, 101, 102, 115, 47, 104, 101, 97, 100, 115, 47]

/-! ## Kinds of paths -/

/-- A segment that a normalized path can hold. -/
structure Name.Canonical (n : Name) : Prop where
  ne_nil : n ≠ []
  ne_dot : n ≠ dot
  ne_dotdot : n ≠ dotdot
  no_slash : slash ∉ n

/-- A normalized path. -/
def RelPath.Canonical (p : RelPath) : Prop := ∀ n ∈ p, n.Canonical

/-- No segment holds a NUL byte. -/
def NulFree (p : List Name) : Prop := ∀ n ∈ p, (0 : UInt8) ∉ n

/-- A path the host file system can hold as it stands. -/
def Ordinary (p : List Name) : Prop := RelPath.Canonical p ∧ NulFree p

instance (n : Name) : Decidable n.Canonical :=
  decidable_of_iff (n ≠ [] ∧ n ≠ dot ∧ n ≠ dotdot ∧ slash ∉ n)
    ⟨fun h => ⟨h.1, h.2.1, h.2.2.1, h.2.2.2⟩, fun h => ⟨h.ne_nil, h.ne_dot, h.ne_dotdot, h.no_slash⟩⟩

instance (p : List Name) : Decidable (Ordinary p) :=
  inferInstanceAs (Decidable ((∀ n ∈ p, n.Canonical) ∧ ∀ n ∈ p, (0 : UInt8) ∉ n))

/-! ## Normalization -/

theorem takeSegment_canonical {segments : List Name} {segment : Name} (h : RelPath.Canonical segments)
    (hs : slash ∉ segment) : RelPath.Canonical (takeSegment segments segment) := by
  unfold takeSegment
  split
  · exact fun n hn => h n (List.dropLast_subset _ hn)
  · rename_i hdd
    split
    · rename_i hne
      intro n hn
      rcases List.mem_append.mp hn with hn | hn
      · exact h n hn
      · rw [List.mem_singleton] at hn
        exact hn ▸ ⟨hne.1, hne.2, hdd, hs⟩
    · exact h

theorem normalizeLoop_canonical (path : Bytes) : ∀ (segments : List Name) (segment : Name),
    RelPath.Canonical segments → slash ∉ segment → RelPath.Canonical (normalizeLoop segments segment path) := by
  induction path with
  | nil => exact fun _ _ h hs => takeSegment_canonical h hs
  | cons c path ih =>
    intro segments segment h hs
    unfold normalizeLoop
    split
    · exact ih _ _ (takeSegment_canonical h hs) List.not_mem_nil
    · rename_i hc
      refine ih _ _ h ?_
      rw [List.mem_append, List.mem_singleton]
      rintro (h' | h')
      · exact hs h'
      · exact hc h'.symm

/-- Every path the engine works on is normalized, whatever the caller passed. -/
theorem normalizeRelative_canonical (path : Bytes) : (normalizeRelative path).Canonical :=
  normalizeLoop_canonical path [] [] (fun _ h => nomatch h) List.not_mem_nil

theorem takeSegment_nulFree {segments : List Name} {segment : Name} (h : NulFree segments)
    (hs : (0 : UInt8) ∉ segment) : NulFree (takeSegment segments segment) := by
  unfold takeSegment
  split
  · exact fun n hn => h n (List.dropLast_subset _ hn)
  · split
    · intro n hn
      rcases List.mem_append.mp hn with hn | hn
      · exact h n hn
      · rw [List.mem_singleton] at hn
        exact hn ▸ hs
    · exact h

theorem normalizeLoop_nulFree (path : Bytes) : ∀ (segments : List Name) (segment : Name),
    NulFree segments → (0 : UInt8) ∉ segment → (0 : UInt8) ∉ path → NulFree (normalizeLoop segments segment path) := by
  induction path with
  | nil => exact fun _ _ h hs _ => takeSegment_nulFree h hs
  | cons c path ih =>
    intro segments segment h hs hp
    rw [List.mem_cons, not_or] at hp
    unfold normalizeLoop
    split
    · exact ih _ _ (takeSegment_nulFree h hs) List.not_mem_nil hp.2
    · refine ih _ _ h ?_ hp.2
      rw [List.mem_append, List.mem_singleton]
      rintro (h' | h')
      · exact hs h'
      · exact hp.1 h'

/-- A path string without a NUL byte normalizes to a path the host can hold. -/
theorem normalizeRelative_ordinary {path : Bytes} (h : (0 : UInt8) ∉ path) : Ordinary (normalizeRelative path) :=
  ⟨normalizeRelative_canonical path, normalizeLoop_nulFree path [] [] (fun _ h => nomatch h) List.not_mem_nil h⟩

/-! ## Texts -/

theorem splitSlash_ne_nil (b : Bytes) : splitSlash b ≠ [] := by
  cases b with
  | nil => simp [splitSlash]
  | cons c cs =>
    unfold splitSlash
    split
    · simp
    · split <;> simp

/-- A segment without a slash, and then a text: the segment is split off. -/
theorem splitSlash_append {s : Name} (hs : slash ∉ s) (b : Bytes) :
    splitSlash (s ++ slash :: b) = s :: splitSlash b := by
  induction s with
  | nil => simp [splitSlash]
  | cons c s ih =>
    rw [List.mem_cons, not_or] at hs
    have hc : ¬c = slash := fun e => hs.1 e.symm
    simp [splitSlash, hc, ih hs.2]

theorem splitSlash_segment {s : Name} (hs : slash ∉ s) : splitSlash s = [s] := by
  induction s with
  | nil => rfl
  | cons c s ih =>
    rw [List.mem_cons, not_or] at hs
    have hc : ¬c = slash := fun e => hs.1 e.symm
    simp [splitSlash, hc, ih hs.2]

theorem splitSlash_text {p : RelPath} (hp : ∀ n ∈ p, slash ∉ n) (hne : p ≠ []) : splitSlash p.text = p := by
  induction p with
  | nil => exact absurd rfl hne
  | cons s p ih =>
    cases p with
    | nil => exact splitSlash_segment (hp s List.mem_cons_self)
    | cons t p =>
      rw [RelPath.text, splitSlash_append (hp s List.mem_cons_self),
        ih (fun n hn => hp n (List.mem_cons_of_mem _ hn)) (by simp)]

theorem text_ne_nil {p : RelPath} (hp : p.Canonical) (hne : p ≠ []) : p.text ≠ [] := by
  match p, hne with
  | [s], _ => exact (hp s List.mem_cons_self).ne_nil
  | s :: t :: p, _ => simp [RelPath.text]

/-- Splitting the text of a normalized path gives the path back. -/
theorem ofText_text {p : RelPath} (hp : p.Canonical) : RelPath.ofText p.text = p := by
  by_cases hne : p = []
  · subst hne; rfl
  · rw [RelPath.ofText, if_neg (text_ne_nil hp hne), splitSlash_text (fun n hn => (hp n hn).no_slash) hne]

/-- The loop takes a segment byte by byte. -/
theorem normalizeLoop_append {s : Name} (hs : slash ∉ s) (segments : List Name) (segment rest : Bytes) :
    normalizeLoop segments segment (s ++ rest) = normalizeLoop segments (segment ++ s) rest := by
  induction s generalizing segment with
  | nil => simp
  | cons c s ih =>
    rw [List.mem_cons, not_or] at hs
    have hc : ¬c = slash := fun e => hs.1 e.symm
    rw [List.cons_append, normalizeLoop, if_neg hc, ih hs.2, List.append_assoc]
    rfl

theorem takeSegment_of_canonical {s : Name} (hs : s.Canonical) (segments : List Name) :
    takeSegment segments s = segments ++ [s] := by
  rw [takeSegment, if_neg hs.ne_dotdot, if_pos ⟨hs.ne_nil, hs.ne_dot⟩]

theorem normalizeLoop_text {p : RelPath} (hp : p.Canonical) (hne : p ≠ []) (segments : List Name) :
    normalizeLoop segments [] p.text = segments ++ p := by
  induction p generalizing segments with
  | nil => exact absurd rfl hne
  | cons s p ih =>
    have hs := hp s List.mem_cons_self
    cases p with
    | nil =>
      have h := normalizeLoop_append hs.no_slash segments [] []
      rw [List.append_nil, List.nil_append] at h
      rw [RelPath.text, h, normalizeLoop, takeSegment_of_canonical hs]
    | cons t p =>
      rw [RelPath.text, normalizeLoop_append hs.no_slash, List.nil_append, normalizeLoop, if_pos rfl,
        takeSegment_of_canonical hs, ih (fun n hn => hp n (List.mem_cons_of_mem _ hn)) (by simp)]
      simp

/-- A normalized path is normalized to itself. -/
theorem normalizeRelative_text {p : RelPath} (hp : p.Canonical) : normalizeRelative p.text = p := by
  by_cases hne : p = []
  · subst hne
    rfl
  · exact normalizeLoop_text hp hne []

/-- Normalized paths with the same text are the same path. -/
theorem text_injective {p q : RelPath} (hp : p.Canonical) (hq : q.Canonical) (h : p.text = q.text) : p = q := by
  rw [← ofText_text hp, ← ofText_text hq, h]

theorem text_splitSlash (b : Bytes) : RelPath.text (splitSlash b) = b := by
  induction b with
  | nil => rfl
  | cons c cs ih =>
    unfold splitSlash
    split
    · rename_i hc
      obtain ⟨s, rest, hs⟩ := List.exists_cons_of_ne_nil (splitSlash_ne_nil cs)
      rw [hs] at ih ⊢
      rw [RelPath.text, ih, hc]
      rfl
    · obtain ⟨s, rest, hs⟩ := List.exists_cons_of_ne_nil (splitSlash_ne_nil cs)
      rw [hs] at ih ⊢
      cases rest with
      | nil => simpa [RelPath.text] using ih
      | cons t rest => simpa [RelPath.text] using ih

/-- Splitting a text keeps the text. -/
theorem text_ofText (b : Bytes) : RelPath.text (RelPath.ofText b) = b := by
  unfold RelPath.ofText
  split
  · rename_i h
    rw [h]
    rfl
  · exact text_splitSlash b

theorem text_append {p q : RelPath} (hp : p ≠ []) (hq : q ≠ []) :
    RelPath.text (p ++ q) = p.text ++ slash :: q.text := by
  induction p with
  | nil => exact absurd rfl hp
  | cons s p ih =>
    cases p with
    | nil =>
      cases q with
      | nil => exact absurd rfl hq
      | cons t q => rfl
    | cons t p =>
      have := ih (by simp)
      simp only [List.cons_append] at this
      simp [RelPath.text, this]

theorem cStr_cStr (b : Bytes) : cStr (cStr b) = cStr b := List.takeWhile_idem

theorem cStr_eq_self {b : Bytes} (h : (0 : UInt8) ∉ b) : cStr b = b := by
  rw [cStr, List.takeWhile_eq_self_iff]
  intro c hc
  simp only [decide_eq_true_eq]
  exact fun e => h (e ▸ hc)

theorem cPath_eq_self {p : List Name} (h : NulFree p) : cPath p = p := by
  induction p with
  | nil => rfl
  | cons s p ih =>
    rw [cPath, if_neg (h s List.mem_cons_self), ih (fun n hn => h n (List.mem_cons_of_mem _ hn))]

theorem not_mem_text {p : RelPath} (h : NulFree p) : (0 : UInt8) ∉ p.text := by
  induction p with
  | nil => exact List.not_mem_nil
  | cons s p ih =>
    have hs := h s List.mem_cons_self
    have ih' := ih (fun n hn => h n (List.mem_cons_of_mem _ hn))
    cases p with
    | nil => exact hs
    | cons t p =>
      rw [RelPath.text, List.mem_append, List.mem_cons]
      rintro (h' | h' | h')
      · exact hs h'
      · exact absurd h' (by decide)
      · exact ih' h'

theorem Ordinary.append {p q : List Name} (hp : Ordinary p) (hq : Ordinary q) : Ordinary (p ++ q) :=
  ⟨fun n hn => (List.mem_append.mp hn).elim (hp.1 n) (hq.1 n), fun n hn => (List.mem_append.mp hn).elim (hp.2 n) (hq.2 n)⟩

theorem Ordinary.of_initial {p q : List Name} (hq : Ordinary q) (h : p <+: q) : Ordinary p :=
  ⟨fun n hn => hq.1 n (h.subset hn), fun n hn => hq.2 n (h.subset hn)⟩

theorem Ordinary.suffix {p q : List Name} (hq : Ordinary (p ++ q)) : Ordinary q :=
  ⟨fun n hn => hq.1 n (List.mem_append_right _ hn), fun n hn => hq.2 n (List.mem_append_right _ hn)⟩

theorem Ordinary.nil : Ordinary [] := ⟨fun _ h => (nomatch h), fun _ h => (nomatch h)⟩

/-! ## Subtrees -/

/-- `path == root || path.starts_with(root + "/")`, as `publish_staged_operation` tests it. -/
def isAtOrUnder (root path : RelPath) : Bool :=
  path.text == root.text || (root.text ++ [slash]).isPrefixOf path.text

/-- The test on texts is the test on segments. -/
theorem isAtOrUnder_iff {root path : RelPath} (hr : root.Canonical) (hne : root ≠ []) (hp : path.Canonical) :
    isAtOrUnder root path = true ↔ root <+: path := by
  unfold isAtOrUnder
  rw [Bool.or_eq_true, beq_iff_eq, List.isPrefixOf_iff_prefix]
  constructor
  · rintro (h | ⟨b, hb⟩)
    · exact text_injective hp hr h ▸ List.prefix_refl _
    · have hsplit : path = root ++ splitSlash b := by
        have hpne : path ≠ [] := by
          rintro rfl
          simp [RelPath.text] at hb
        rw [← splitSlash_text (fun n hn => (hp n hn).no_slash) hpne, ← hb]
        have : ∀ r : RelPath, (∀ n ∈ r, slash ∉ n) → r ≠ [] → splitSlash (r.text ++ [slash] ++ b) = r ++ splitSlash b := by
          intro r
          induction r with
          | nil => exact fun _ h => absurd rfl h
          | cons s r ih =>
            intro hr' _
            cases r with
            | nil => simpa [RelPath.text] using splitSlash_append (hr' s List.mem_cons_self) b
            | cons t r =>
              have := ih (fun n hn => hr' n (List.mem_cons_of_mem _ hn)) (by simp)
              simpa [RelPath.text, splitSlash_append (hr' s List.mem_cons_self)] using this
        exact this root (fun n hn => (hr n hn).no_slash) hne
      exact ⟨_, hsplit.symm⟩
  · rintro ⟨s, rfl⟩
    by_cases hs : s = []
    · left
      rw [hs, List.append_nil]
    · right
      exact ⟨RelPath.text s, by rw [text_append hne hs]; simp⟩

end TribiosVfs
