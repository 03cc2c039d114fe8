import Concord.Transport.Client

/-!
Sequences of frames on a connection. The bodies that were written are read back, and for arbitrary
bytes, writing the bodies that were read gives the bytes in front of the rest, which begins no
frame.
-/

namespace Concord.Transport.Frame

variable {b body rest : Bytes} {bodies : List Bytes} {fault : Fault} {size : Nat}

/-- The bytes that writing a body puts on a connection. There are none if the body is too large. -/
def sent (body : Bytes) : Bytes := (write body).toOption.getD []

/-- The bytes do not begin with a complete frame. Reading them gives the fault. -/
inductive Stuck : Bytes → Fault → Prop
  | header {b : Bytes} : b.length < 4 → Stuck b .earlyEnd
  | body {size : Nat} {b : Bytes} :
      size ≤ maxSize → b.length < size → Stuck (Bytes.bigEndian 4 size ++ b) .earlyEnd
  | tooLarge {size : Nat} {b : Bytes} :
      maxSize < size → size < UInt32.size →
      Stuck (Bytes.bigEndian 4 size ++ b) (.frameTooLarge size)

section Writing

theorem write_of_le (h : body.length ≤ maxSize) : write body = .ok (sent body) := by
  simp [sent, write, Nat.not_lt.2 h, Except.toOption]

theorem sent_of_le (h : body.length ≤ maxSize) :
    sent body = Bytes.bigEndian 4 body.length ++ body := by
  simp [sent, write, Nat.not_lt.2 h, Except.toOption]

theorem write_of_lt (h : maxSize < body.length) :
    write body = .error (.frameTooLarge body.length) := by
  simp [write, h]

theorem sent_of_lt (h : maxSize < body.length) : sent body = [] := by
  simp [sent, write_of_lt h, Except.toOption]

theorem converse_of_lt (h : maxSize < body.length) (member : Member) (b : Bytes) :
    Client.converse member body (.answers b) = (.error (.frameTooLarge body.length), none) := by
  simp [Client.converse, write_of_lt h]

end Writing

section Reading

theorem header_cases (b : Bytes) : b.length < 4 ∨
    ∃ size rest, size < UInt32.size ∧ b = Bytes.bigEndian 4 size ++ rest := by
  cases hsplit : Bytes.split? 4 b with
  | none => exact .inl (Bytes.split?_eq_none_iff.1 hsplit)
  | some parts =>
    obtain ⟨front, rest⟩ := parts
    obtain ⟨hb, hlength⟩ := Bytes.eq_append_of_split? hsplit
    have hsize := Bytes.ofBigEndian_lt front
    have hfront := Bytes.bigEndian_ofBigEndian front
    rw [hlength] at hsize hfront
    exact .inr ⟨Bytes.ofBigEndian front, rest, hsize, by rw [hfront, hb]⟩

theorem read_of_short (h : b.length < 4) : read b = .error .earlyEnd := by
  simp [read, Bytes.split?_eq_none_iff.2 h]

theorem read_header (h : size < UInt32.size) (b : Bytes) :
    read (Bytes.bigEndian 4 size ++ b) =
      if maxSize < size then .error (.frameTooLarge size)
      else (Bytes.split? size b).elim (.error .earlyEnd) .ok := by
  have hsplit := Bytes.split?_append (Bytes.length_bigEndian 4 size) b
  have hsize : Bytes.ofBigEndian (Bytes.bigEndian 4 size) = size := by
    rw [Bytes.ofBigEndian_bigEndian]
    exact Nat.mod_eq_of_lt h
  simp only [read, hsplit, hsize]
  cases Bytes.split? size b <;> rfl

theorem size_lt_of_le (h : size ≤ maxSize) : size < UInt32.size :=
  Nat.lt_of_le_of_lt h (by decide)

theorem read_sent (h : body.length ≤ maxSize) (rest : Bytes) :
    read (sent body ++ rest) = .ok (body, rest) := by
  rw [sent_of_le h, List.append_assoc, read_header (size_lt_of_le h), if_neg (Nat.not_lt.2 h),
    Bytes.split?_append rfl]
  rfl

theorem Stuck.read_eq (h : Stuck b fault) : read b = .error fault := by
  cases h with
  | header hshort => exact read_of_short hshort
  | body hle hshort =>
    rw [read_header (size_lt_of_le hle), if_neg (Nat.not_lt.2 hle),
      Bytes.split?_eq_none_iff.2 hshort]
    rfl
  | tooLarge hlarge hsize => rw [read_header hsize, if_pos hlarge]

theorem sent_or_stuck (b : Bytes) :
    (∃ body rest, body.length ≤ maxSize ∧ b = sent body ++ rest) ∨ ∃ fault, Stuck b fault := by
  cases header_cases b with
  | inl hshort => exact .inr ⟨.earlyEnd, .header hshort⟩
  | inr hheader =>
    obtain ⟨size, after, hsize, rfl⟩ := hheader
    by_cases hle : size ≤ maxSize
    · cases hsplit : Bytes.split? size after with
      | none => exact .inr ⟨.earlyEnd, .body hle (Bytes.split?_eq_none_iff.1 hsplit)⟩
      | some parts =>
        obtain ⟨body, rest⟩ := parts
        obtain ⟨rfl, rfl⟩ := Bytes.eq_append_of_split? hsplit
        exact .inl ⟨body, rest, hle, by rw [sent_of_le hle, List.append_assoc]⟩
    · exact .inr ⟨.frameTooLarge size, .tooLarge (Nat.not_le.1 hle) hsize⟩

theorem read_eq_ok_iff :
    read b = .ok (body, rest) ↔ body.length ≤ maxSize ∧ b = sent body ++ rest := by
  constructor
  · intro h
    cases sent_or_stuck b with
    | inl hsent =>
      obtain ⟨body', rest', hle, rfl⟩ := hsent
      rw [read_sent hle] at h
      cases h
      exact ⟨hle, rfl⟩
    | inr hstuck =>
      obtain ⟨fault, hstuck⟩ := hstuck
      rw [hstuck.read_eq] at h
      cases h
  · intro h
    exact h.2 ▸ read_sent h.1 rest

theorem read_eq_error_iff : read b = .error fault ↔ Stuck b fault := by
  constructor
  · intro h
    cases sent_or_stuck b with
    | inl hsent =>
      obtain ⟨body, rest, hle, rfl⟩ := hsent
      rw [read_sent hle] at h
      cases h
    | inr hstuck =>
      obtain ⟨fault', hstuck⟩ := hstuck
      rw [hstuck.read_eq] at h
      cases h
      exact hstuck
  · exact Stuck.read_eq

end Reading

section Streams

theorem readAll_eq_nil_iff : readAll b = ([], fault) ↔ read b = .error fault := by
  rw [readAll]
  split
  · next hread => simp [hread]
  · next hread => simp [hread]

theorem readAll_eq_cons_iff : readAll b = (body :: bodies, fault) ↔
    ∃ rest, read b = .ok (body, rest) ∧ readAll rest = (bodies, fault) := by
  rw [readAll]
  split
  · next hread => simp [hread]
  · next hread => simp [hread, Prod.ext_iff, and_assoc]

/-- Reading yields exactly the bodies of the frames in front of bytes that begin no frame. -/
theorem readAll_eq_iff : readAll b = (bodies, fault) ↔
    (∀ body ∈ bodies, body.length ≤ maxSize) ∧
      ∃ rest, b = bodies.flatMap sent ++ rest ∧ Stuck rest fault := by
  induction bodies generalizing b with
  | nil => simp [readAll_eq_nil_iff, read_eq_error_iff]
  | cons body bodies ih =>
    rw [readAll_eq_cons_iff]
    constructor
    · intro h
      obtain ⟨after, hread, hafter⟩ := h
      obtain ⟨hle, rfl⟩ := read_eq_ok_iff.1 hread
      obtain ⟨hbodies, rest, rfl, hstuck⟩ := ih.1 hafter
      refine ⟨?_, rest, ?_, hstuck⟩
      · exact List.forall_mem_cons.2 ⟨hle, hbodies⟩
      · rw [List.flatMap_cons, List.append_assoc]
    · intro h
      obtain ⟨hbodies, rest, rfl, hstuck⟩ := h
      obtain ⟨hle, hbodies⟩ := List.forall_mem_cons.1 hbodies
      refine ⟨bodies.flatMap sent ++ rest, ?_, ih.2 ⟨hbodies, rest, rfl, hstuck⟩⟩
      rw [List.flatMap_cons, List.append_assoc]
      exact read_sent hle _

/-- Bodies of at most `maxSize` bytes are read back as they were written. On any connection, the
bodies that are read are written as the bytes in front of those that begin no frame, and the fault
is that of the rest. A larger body is refused, and nothing is written. -/
theorem framing_lossless :
    (∀ bodies : List Bytes, (∀ body ∈ bodies, body.length ≤ maxSize) →
      (∀ body ∈ bodies, write body = .ok (sent body)) ∧
      readAll (bodies.flatMap sent) = (bodies, .earlyEnd)) ∧
    (∀ b : Bytes, ∃ rest, b = (readAll b).1.flatMap sent ++ rest ∧
      (∀ body ∈ (readAll b).1, body.length ≤ maxSize ∧ write body = .ok (sent body)) ∧
      read rest = .error (readAll b).2 ∧ Stuck rest (readAll b).2) ∧
    (∀ body : Bytes, maxSize < body.length →
      write body = .error (.frameTooLarge body.length) ∧ sent body = [] ∧
      ∀ member b, (Client.converse member body (.answers b)).2 = none) := by
  refine ⟨?_, ?_, ?_⟩
  · intro bodies hbodies
    refine ⟨fun body hbody => write_of_le (hbodies body hbody), ?_⟩
    exact readAll_eq_iff.2 ⟨hbodies, [], (List.append_nil _).symm, .header (by decide)⟩
  · intro b
    obtain ⟨hbodies, rest, hb, hstuck⟩ := readAll_eq_iff.1 (rfl : readAll b = _)
    exact ⟨rest, hb, fun body hbody => ⟨hbodies body hbody, write_of_le (hbodies body hbody)⟩,
      hstuck.read_eq, hstuck⟩
  · intro body hlarge
    refine ⟨write_of_lt hlarge, sent_of_lt hlarge, fun member b => ?_⟩
    rw [converse_of_lt hlarge]

/-- An empty body and a body of one byte are read back. A body one byte too large is refused. -/
theorem framing_lossless_of_ping :
    readAll ([[], [7]].flatMap sent) = ([[], [7]], .earlyEnd) ∧
    maxSize < (List.replicate (maxSize + 1) 0 : Bytes).length ∧
    sent (List.replicate (maxSize + 1) 0) = [] := by
  obtain ⟨hread, -, hlarge⟩ := framing_lossless
  have hlength : maxSize < (List.replicate (maxSize + 1) 0 : Bytes).length := by
    rw [List.length_replicate]
    exact Nat.lt_succ_self _
  exact ⟨(hread [[], [7]] (by decide)).2, hlength, (hlarge _ hlength).2.1⟩

end Streams

end Concord.Transport.Frame
