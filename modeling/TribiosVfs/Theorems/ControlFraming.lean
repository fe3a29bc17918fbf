import TribiosVfs.Protocol

/-!
# Control framing

Every list of fields comes through the wire as it was sent, whatever its bytes are and however the stream is cut into reads.
-/

namespace TribiosVfs

namespace FramingAux

/-! ## One byte -/

theorem hexValue_hexDigit {n : Nat} (hn : n < 16) : hexValue (hexDigit n) = some n := by
  interval_cases n <;> rfl

theorem hexDigit_plain {n : Nat} (hn : n < 16) : mustEscape (hexDigit n) = false := by
  interval_cases n <;> rfl

/-- An escape stands for the byte it was made of. -/
theorem escapeValue_escaped (c : UInt8) (rest : Bytes) :
    escapeValue percent (hexDigit (c.toNat / 16) :: hexDigit (c.toNat % 16) :: rest) = some c := by
  have hc : c.toNat < 256 := UInt8.toNat_lt_size c
  have hhigh : c.toNat / 16 < 16 := by omega
  have hlow : c.toNat % 16 < 16 := by omega
  have hsum : c.toNat / 16 * 16 + c.toNat % 16 = c.toNat := by omega
  simp [escapeValue, hexValue_hexDigit hhigh, hexValue_hexDigit hlow, hsum]

/-- A byte that is no percent sign starts no escape. -/
theorem escapeValue_plain {c : UInt8} (hc : c ≠ percent) (rest : Bytes) : escapeValue c rest = none := by
  unfold escapeValue
  split
  · rw [if_neg hc]
  · rfl

/-- The bytes that are written as they are. -/
theorem plain_of_not_mustEscape {c : UInt8} (hc : mustEscape c = false) :
    c ≠ percent ∧ c ≠ tab ∧ c ≠ newline ∧ c ≠ carriageReturn := by
  simp only [mustEscape, Bool.or_eq_false_iff, decide_eq_false_iff_not] at hc
  exact ⟨hc.1.1.1.1, hc.1.1.1.2, hc.1.1.2, hc.1.2⟩

theorem hexDigit_ne_newline {n : Nat} (hn : n < 16) : hexDigit n ≠ newline :=
  (plain_of_not_mustEscape (hexDigit_plain hn)).2.2.1

/-- The loop takes a plain byte as it is. -/
theorem decodeLoop_plain {c : UInt8} (hc : mustEscape c = false) (fields : List Bytes) (back rest : Bytes) :
    decodeLoop fields back 0 (c :: rest) = decodeLoop fields (back ++ [c]) 0 rest := by
  obtain ⟨hpercent, htab, hnewline, hreturn⟩ := plain_of_not_mustEscape hc
  rw [decodeLoop, if_neg (by simp [hnewline, hreturn]), if_neg htab, escapeValue_plain hpercent]

/-- The loop takes an escape as the byte it stands for. -/
theorem decodeLoop_escape (c : UInt8) (fields : List Bytes) (back rest : Bytes) :
    decodeLoop fields back 0 (percent :: hexDigit (c.toNat / 16) :: hexDigit (c.toNat % 16) :: rest) =
      decodeLoop fields (back ++ [c]) 0 rest := by
  rw [decodeLoop, if_neg (by decide), if_neg (by decide), escapeValue_escaped]
  rfl

/-- In the middle of a field the loop reads back the byte that was written. -/
theorem decodeLoop_escapeByte (c : UInt8) (fields : List Bytes) (back rest : Bytes) :
    decodeLoop fields back 0 (escapeByte c ++ rest) = decodeLoop fields (back ++ [c]) 0 rest := by
  unfold escapeByte
  split
  · exact decodeLoop_escape c fields back rest
  · rename_i hc
    exact decodeLoop_plain (by simpa using hc) fields back rest

/-- No escaped byte is a newline. -/
theorem newline_not_mem_escapeByte (c : UInt8) : newline ∉ escapeByte c := by
  have hc : c.toNat < 256 := UInt8.toNat_lt_size c
  unfold escapeByte
  split
  · intro hmem
    rcases List.mem_cons.1 hmem with h | h
    · exact absurd h (by decide)
    rcases List.mem_cons.1 h with h | h
    · exact hexDigit_ne_newline (by omega) h.symm
    · exact hexDigit_ne_newline (by omega) (List.mem_singleton.1 h).symm
  · rename_i hc
    intro hmem
    obtain ⟨_, _, hnewline, _⟩ := plain_of_not_mustEscape (by simpa using hc)
    exact hnewline (List.mem_singleton.1 hmem).symm

/-! ## One field, and all of them -/

/-- The loop reads back a whole field; the induction is on its bytes, with what is already read general. -/
theorem decodeLoop_field (field : Bytes) (fields : List Bytes) (back rest : Bytes) :
    decodeLoop fields back 0 (field.flatMap escapeByte ++ rest) = decodeLoop fields (back ++ field) 0 rest := by
  induction field generalizing back with
  | nil => simp
  | cons c field ih =>
    rw [List.flatMap_cons, List.append_assoc, decodeLoop_escapeByte, ih, List.append_assoc]
    rfl

/-- `encode_message` writes a tab and a field at a time. -/
theorem encodeLoop_eq (out : Bytes) (fields : List Bytes) :
    encodeLoop out fields = out ++ fields.flatMap (fun field => tab :: field.flatMap escapeByte) := by
  induction fields generalizing out with
  | nil => simp [encodeLoop]
  | cons field fields ih =>
    rw [encodeLoop, ih, appendEscaped]
    simp

theorem encodeFields_cons (field : Bytes) (fields : List Bytes) :
    encodeFields (field :: fields) =
      field.flatMap escapeByte ++ fields.flatMap (fun f => tab :: f.flatMap escapeByte) := by
  rw [encodeFields, encodeLoop_eq]
  simp [appendEscaped]

/-- Behind a field the loop reads back the fields that follow, up to the newline. -/
theorem decodeLoop_fields (fields before : List Bytes) (back rest : Bytes) :
    decodeLoop before back 0 (fields.flatMap (fun f => tab :: f.flatMap escapeByte) ++ newline :: rest) =
      before ++ back :: fields := by
  induction fields generalizing before back with
  | nil => simp [decodeLoop]
  | cons field fields ih =>
    have htab : decodeLoop before back 0
        (tab :: (field.flatMap escapeByte ++ (fields.flatMap (fun f => tab :: f.flatMap escapeByte) ++ newline :: rest))) =
        decodeLoop (before ++ [back]) [] 0
          (field.flatMap escapeByte ++ (fields.flatMap (fun f => tab :: f.flatMap escapeByte) ++ newline :: rest)) := by
      rw [decodeLoop, if_neg (by decide), if_pos rfl]
    rw [List.flatMap_cons, List.cons_append, List.cons_append, List.append_assoc, htab, decodeLoop_field, ih]
    simp

/-- Decoding undoes encoding. -/
theorem decode_encode {fields : List Bytes} (hne : fields ≠ []) : decodeMessage (encodeMessage fields) = fields := by
  cases fields with
  | nil => exact absurd rfl hne
  | cons field fields =>
    rw [decodeMessage, encodeMessage, encodeFields_cons, List.append_assoc, decodeLoop_field]
    exact decodeLoop_fields fields [] field []

/-- What is decoded has at least one field. -/
theorem decodeLoop_ne_nil (line : Bytes) (fields : List Bytes) (back : Bytes) (skip : Nat) :
    decodeLoop fields back skip line ≠ [] := by
  fun_induction decodeLoop fields back skip line <;> simp_all

theorem newline_not_mem_field (field : Bytes) : newline ∉ field.flatMap escapeByte := by
  intro hmem
  obtain ⟨c, _, hc⟩ := List.mem_flatMap.1 hmem
  exact newline_not_mem_escapeByte c hc

/-- The newline behind the fields is the only one. -/
theorem newline_not_mem_encodeFields (fields : List Bytes) : newline ∉ encodeFields fields := by
  cases fields with
  | nil => simp [encodeFields]
  | cons field fields =>
    rw [encodeFields_cons, List.mem_append]
    rintro (h | h)
    · exact newline_not_mem_field field h
    · obtain ⟨f, _, hf⟩ := List.mem_flatMap.1 h
      rcases List.mem_cons.1 hf with h | h
      · exact absurd h (by decide)
      · exact newline_not_mem_field f h

/-! ## The read loop -/

/-- The read loop keeps a first part of the stream, which holds a newline or is all of it. -/
theorem readLoop_spec (chunks : List Chunk) (buffer : Bytes) :
    ∃ rest, buffer ++ delivered chunks = readLoop buffer chunks ++ rest ∧ (newline ∈ readLoop buffer chunks ∨ rest = []) := by
  induction chunks generalizing buffer with
  | nil => exact ⟨[], by simp [delivered, readLoop], Or.inr rfl⟩
  | cons chunk chunks ih =>
    unfold readLoop
    split
    · rename_i hmem
      exact ⟨delivered (chunk :: chunks), rfl, Or.inl hmem⟩
    · obtain ⟨rest, heq, hend⟩ := ih (buffer ++ chunk.bytes)
      refine ⟨rest, ?_, hend⟩
      rw [← heq]
      simp [delivered]

/-- A stream whose only newline is its last byte is read whole. -/
theorem readLoop_line {body : Bytes} (hbody : newline ∉ body) {chunks : List Chunk}
    (hchunks : delivered chunks = body ++ [newline]) : readLoop [] chunks = body ++ [newline] := by
  obtain ⟨rest, heq, hend⟩ := readLoop_spec chunks []
  rw [List.nil_append, hchunks] at heq
  rcases hend with hmem | rfl
  · rcases List.append_eq_append_iff.1 heq with ⟨more, hread, htail⟩ | ⟨more, hread, htail⟩
    · have hlen : more.length + rest.length = 1 := by
        have := congrArg List.length htail
        simpa using this.symm
      cases more with
      | nil =>
        rw [List.append_nil] at hread
        exact absurd (hread ▸ hmem) hbody
      | cons c more =>
        have hrest : rest = [] := List.length_eq_zero_iff.1 (by simp at hlen; omega)
        rw [heq, hrest, List.append_nil]
    · exact absurd (hread ▸ List.mem_append_left more hmem) hbody
  · rw [heq, List.append_nil]

/-- A stream without a newline is read to its end. -/
theorem readLoop_cut {chunks : List Chunk} (hchunks : newline ∉ delivered chunks) :
    readLoop [] chunks = delivered chunks := by
  obtain ⟨rest, heq, hend⟩ := readLoop_spec chunks []
  rw [List.nil_append] at heq
  rcases hend with hmem | rfl
  · rw [heq] at hchunks
    exact absurd (List.mem_append_left rest hmem) hchunks
  · rw [heq, List.append_nil]

end FramingAux

open FramingAux in
/-- Control framing round-trips: whatever the fields' bytes and however the stream is cut into reads, the server reads the fields
the client sent; a message has one newline, as its last byte; no two lists of fields have the same message; and what is decoded
from any line at all is encoded and decoded to itself. -/
theorem control_framing (fields other : List Bytes) (chunks : List Chunk) (line : Bytes) :
    (fields ≠ [] → delivered chunks = encodeMessage fields → receiveRequest chunks = fields) ∧
    (∃ body, encodeMessage fields = body ++ [newline] ∧ newline ∉ body) ∧
    (fields ≠ [] → other ≠ [] → encodeMessage fields = encodeMessage other → fields = other) ∧
    decodeMessage (encodeMessage (decodeMessage line)) = decodeMessage line := by
  refine ⟨?_, ⟨encodeFields fields, rfl, newline_not_mem_encodeFields fields⟩, ?_, ?_⟩
  · intro hne hchunks
    rw [receiveRequest, readLoop_line (newline_not_mem_encodeFields fields) hchunks]
    exact decode_encode hne
  · intro hne hother heq
    rw [← decode_encode hne, heq, decode_encode hother]
  · exact decode_encode (decodeLoop_ne_nil line [] [] 0)

namespace FramingWitness

/-- A field that looks like an escape behind a NUL byte, an empty field, and one of a newline and a tab. -/
def fields : List Bytes := [[0, 37, 48, 57], [], [10, 9]]

/-- The message in two reads, cut inside an escape. -/
def reads : List Chunk :=
  [⟨[37, 48, 48, 37, 50], by decide, by decide⟩, ⟨[53, 48, 57, 9, 9, 37, 48, 65, 37, 48, 57, 10], by decide, by decide⟩]

/-- The request comes through. -/
theorem received : receiveRequest reads = fields :=
  (control_framing fields fields reads []).1 (by decide) (by decide)

end FramingWitness

end TribiosVfs
