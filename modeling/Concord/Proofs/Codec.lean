import Concord.Message.Envelope

/-!
The exactness of the wire format. A decoder returns a value and a rest if and only if the bytes are
the encoding of the value followed by the rest. Only values whose sequences have fewer than 2^64
elements are encoded.
-/

namespace Concord.Text.Utf8

private theorem toList_loop (b : ByteArray) (i : Nat) (read : List UInt8) :
    ByteArray.toList.loop b i read = read.reverse ++ b.data.toList.drop i := by
  fun_induction ByteArray.toList.loop b i read with
  | case1 i read hlt ih =>
    have hlength : i < b.data.toList.length := by simpa using hlt
    have hget : b.get! i = b.data[i]! := by cases b; rfl
    rw [ih, List.drop_eq_getElem_cons hlength, hget, getElem!_pos b.data i hlt]
    simp
  | case2 i read hlt =>
    rw [List.drop_eq_nil_of_le (by simpa using hlt)]
    simp

theorem toList_eq (b : ByteArray) : b.toList = b.data.toList := by
  rw [ByteArray.toList, toList_loop]
  simp

theorem toByteArray_encode (text : String) : (encode text).toByteArray = text.toByteArray := by
  rw [encode, toList_eq]
  exact ByteArray.ext (by rw [List.data_toByteArray, Array.toArray_toList])

theorem decode_iff {b : Bytes} {text : String} : decode b = .ok text ↔ b = encode text := by
  unfold decode String.fromUTF8?
  constructor
  · intro h
    split at h
    · next text' hread =>
      split at hread
      · cases hread
        cases h
        rw [encode, toList_eq]
        exact List.toList_data_toByteArray.symm
      · cases hread
    · cases h
  · rintro rfl
    rw [toByteArray_encode, dif_pos text.isValidUTF8]
    rfl

end Concord.Text.Utf8

namespace Concord.Wire.Codec

variable {α β : Type}

/-- The decoder reads exactly the encodings of the values that fit. -/
structure Exact (c : Codec α) (fits : α → Prop) : Prop where
  decode_iff : ∀ {b : Bytes} {a : α} {rest : Bytes},
    c.decode b = .ok (a, rest) ↔ fits a ∧ b = c.encode a ++ rest

/-- The values that a count of eight bytes can have. -/
def countable : Nat := 18446744073709551616

theorem Exact.congr {c : Codec α} {fits fits' : α → Prop} (h : c.Exact fits)
    (hfits : ∀ a, fits a ↔ fits' a) : c.Exact fits' :=
  ⟨by simp [h.decode_iff, hfits]⟩

theorem Exact.read {c : Codec α} {fits : α → Prop} (h : c.Exact fits) {a : α} (ha : fits a) :
    c.read (c.encode a) = .ok a := by
  have hdecode : c.decode (c.encode a) = .ok (a, []) := h.decode_iff.2 ⟨ha, by simp⟩
  simp [Codec.read, hdecode]

theorem Exact.fits_of_read {c : Codec α} {fits : α → Prop} (h : c.Exact fits) {b : Bytes} {a : α}
    (hread : c.read b = .ok a) : fits a := by
  unfold Codec.read at hread
  split at hread
  · next a' rest hdecode =>
    obtain rfl := Except.ok.inj hread
    exact (h.decode_iff.1 hdecode).1
  · cases hread

theorem Exact.encode_inj {c : Codec α} {fits : α → Prop} (h : c.Exact fits) {a b : α} (ha : fits a)
    (hb : fits b) (heq : c.encode a = c.encode b) : a = b := by
  have hread := heq ▸ h.read ha
  rw [h.read hb] at hread
  exact (Except.ok.inj hread).symm

theorem exact_number {width : Nat} {toNat : α → Nat} {ofNat : Nat → α}
    (hofNat : ∀ a, ofNat (toNat a) = a)
    (htoNat : ∀ n, n < Nat.pow 256 width → toNat (ofNat n) = n) :
    (number width toNat ofNat).Exact fun a => toNat a < Nat.pow 256 width := by
  refine ⟨fun {b a rest} => ?_⟩
  simp only [number]
  constructor
  · intro h
    split at h
    · next front rest' hsplit =>
      cases h
      obtain ⟨rfl, hlength⟩ := Bytes.eq_append_of_split? hsplit
      have hlt := Bytes.ofLittleEndian_lt front
      rw [hlength] at hlt
      rw [htoNat _ hlt]
      refine ⟨hlt, ?_⟩
      rw [← hlength, Bytes.littleEndian_ofLittleEndian]
    · cases h
  · rintro ⟨hlt, rfl⟩
    rw [Bytes.split?_append (Bytes.length_littleEndian _ _)]
    simp only [Bytes.ofLittleEndian_littleEndian]
    rw [Nat.mod_eq_of_lt hlt, hofNat]

theorem exact_u64 : u64.Exact fun _ => True := by
  have hexact : u64.Exact fun a => a.toNat < UInt64.size :=
    exact_number (fun _ => UInt64.ofNat_toNat) fun _ hn => UInt64.toNat_ofNat_of_lt hn
  exact hexact.congr fun a => iff_true_intro a.toNat_lt

theorem exact_u32 : u32.Exact fun _ => True := by
  have hexact : u32.Exact fun a => a.toNat < UInt32.size :=
    exact_number (fun _ => UInt32.ofNat_toNat) fun _ hn => UInt32.toNat_ofNat_of_lt hn
  exact hexact.congr fun a => iff_true_intro a.toNat_lt

theorem exact_u16 : u16.Exact fun _ => True := by
  have hexact : u16.Exact fun a => a.toNat < UInt16.size :=
    exact_number (fun _ => UInt16.ofNat_toNat) fun _ hn => UInt16.toNat_ofNat_of_lt hn
  exact hexact.congr fun a => iff_true_intro a.toNat_lt

theorem exact_count : count.Exact fun n => n < countable :=
  exact_number (fun _ => rfl) fun _ _ => rfl

theorem exact_fixed (n : Nat) : (fixed n).Exact fun _ => True := by
  refine ⟨fun {b a rest} => ?_⟩
  simp only [fixed, true_and]
  constructor
  · intro h
    split at h
    · next front rest' hsplit =>
      obtain ⟨rfl, hlength⟩ := Bytes.eq_append_of_split? hsplit
      simp only [FixedBytes.ofBytes?, hlength, dite_true] at h
      cases h
      rfl
    · cases h
  · rintro rfl
    rw [Bytes.split?_append a.length_bytes]
    simp only [FixedBytes.ofBytes?_bytes]

theorem Exact.map {c : Codec α} {fits : α → Prop} (h : c.Exact fits) {forth : α → β} {back : β → α}
    (hforth : ∀ x, forth (back x) = x) (hback : ∀ a, back (forth a) = a) :
    (c.map forth back).Exact fun x => fits (back x) := by
  refine ⟨fun {b x rest} => ?_⟩
  simp only [Codec.map]
  constructor
  · intro hdecode
    split at hdecode
    · next a rest' ha =>
      cases hdecode
      rw [hback]
      exact h.decode_iff.1 ha
    · cases hdecode
  · intro hx
    rw [h.decode_iff.2 hx]
    simp only [hforth]

theorem Exact.pair {c : Codec α} {d : Codec β} {fits : α → Prop} {fits' : β → Prop}
    (hc : c.Exact fits) (hd : d.Exact fits') :
    (c.pair d).Exact fun x => fits x.1 ∧ fits' x.2 := by
  refine ⟨fun {b x rest} => ?_⟩
  simp only [Codec.pair]
  constructor
  · intro h
    split at h
    · cases h
    · next a rest' ha =>
      split at h
      · cases h
      · next y rest'' hy =>
        cases h
        obtain ⟨hfits, rfl⟩ := hc.decode_iff.1 ha
        obtain ⟨hfits', rfl⟩ := hd.decode_iff.1 hy
        exact ⟨⟨hfits, hfits'⟩, by simp⟩
  · rintro ⟨⟨hfits, hfits'⟩, rfl⟩
    have hfirst : c.decode (c.encode x.1 ++ d.encode x.2 ++ rest) =
        .ok (x.1, d.encode x.2 ++ rest) := hc.decode_iff.2 ⟨hfits, by simp⟩
    have hsecond : d.decode (d.encode x.2 ++ rest) = .ok (x.2, rest) :=
      hd.decode_iff.2 ⟨hfits', rfl⟩
    rw [hfirst]
    simp only [hsecond]

theorem exact_choice {all : List α} {index : α → Nat} (hall : ∀ a, all[index a]? = some a)
    (hindices : all.map index = List.range all.length) (hlength : all.length ≤ 4294967296) :
    (choice all index).Exact fun _ => True := by
  have hindex : ∀ i a, all[i]? = some a → index a = i := by
    intro i a ha
    have hlt : i < all.length := (List.getElem?_eq_some_iff.1 ha).1
    have hi : (all.map index)[i]? = some (index a) := by rw [List.getElem?_map, ha]; rfl
    rw [hindices, List.getElem?_range hlt] at hi
    exact (Option.some.inj hi).symm
  have hlt : ∀ a, index a < UInt32.size := fun a =>
    Nat.lt_of_lt_of_le (List.getElem?_eq_some_iff.1 (hall a)).1 hlength
  refine ⟨fun {b a rest} => ?_⟩
  simp only [choice, true_and]
  constructor
  · intro h
    split at h
    · cases h
    · next i rest' hi =>
      split at h
      · next a' ha' =>
        cases h
        rw [hindex _ _ ha']
        exact (exact_u32.decode_iff.1 hi).2
      · cases h
  · rintro rfl
    have htoNat : (UInt32.ofNat (index a)).toNat = index a := UInt32.toNat_ofNat_of_lt (hlt a)
    have hdecode : u32.decode (Bytes.littleEndian 4 (index a) ++ rest) =
        .ok (UInt32.ofNat (index a), rest) := by
      refine exact_u32.decode_iff.2 ⟨trivial, ?_⟩
      simp only [u32, number, htoNat]
    simp only [hdecode, htoNat, hall]

theorem exact_bytes : Codec.bytes.Exact fun b => b.length < countable := by
  refine ⟨fun {b a rest} => ?_⟩
  simp only [Codec.bytes]
  constructor
  · intro h
    split at h
    · cases h
    · next n rest' hn =>
      split at h
      · next front rest'' hsplit =>
        cases h
        obtain ⟨hlt, rfl⟩ := exact_count.decode_iff.1 hn
        obtain ⟨rfl, rfl⟩ := Bytes.eq_append_of_split? hsplit
        exact ⟨hlt, by simp⟩
      · cases h
  · rintro ⟨hlt, rfl⟩
    have hcount : count.decode (count.encode a.length ++ a ++ rest) = .ok (a.length, a ++ rest) :=
      exact_count.decode_iff.2 ⟨hlt, by simp⟩
    rw [hcount]
    simp only [Bytes.split?_append rfl]

theorem exact_countedFixed {n : Nat} (hn : n < countable) :
    (countedFixed n).Exact fun _ => True := by
  refine ⟨fun {b a rest} => ?_⟩
  simp only [countedFixed, true_and]
  constructor
  · intro h
    split at h
    · cases h
    · next m rest' hm =>
      split at h
      · cases h
      · next front rest'' hsplit =>
        unfold FixedBytes.ofBytes? at h
        split at h
        · next block hblock =>
          split at hblock
          · next hlength =>
            cases hblock
            cases h
            obtain ⟨-, rfl⟩ := exact_count.decode_iff.1 hm
            obtain ⟨rfl, rfl⟩ := Bytes.eq_append_of_split? hsplit
            simp [hlength]
          · cases hblock
        · cases h
  · rintro rfl
    have hcount : count.decode (count.encode n ++ a.bytes ++ rest) = .ok (n, a.bytes ++ rest) :=
      exact_count.decode_iff.2 ⟨hn, by simp⟩
    rw [hcount]
    simp only [Bytes.split?_append a.length_bytes, FixedBytes.ofBytes?_bytes]

theorem exact_text : Codec.text.Exact fun s => (Text.Utf8.encode s).length < countable := by
  refine ⟨fun {b s rest} => ?_⟩
  simp only [Codec.text, Codec.bytes]
  constructor
  · intro h
    split at h
    · cases h
    · next n rest' hn =>
      split at h
      · cases h
      · next front rest'' hsplit =>
        split at h
        · next s' htext =>
          cases h
          obtain rfl := Text.Utf8.decode_iff.1 htext
          obtain ⟨hlt, rfl⟩ := exact_count.decode_iff.1 hn
          obtain ⟨rfl, rfl⟩ := Bytes.eq_append_of_split? hsplit
          exact ⟨hlt, by simp⟩
        · cases h
  · rintro ⟨hlt, rfl⟩
    have hcount : count.decode
        (count.encode (Text.Utf8.encode s).length ++ Text.Utf8.encode s ++ rest) =
        .ok ((Text.Utf8.encode s).length, Text.Utf8.encode s ++ rest) :=
      exact_count.decode_iff.2 ⟨hlt, by simp⟩
    rw [hcount]
    have htext : Text.Utf8.decode (Text.Utf8.encode s) = .ok s := Text.Utf8.decode_iff.2 rfl
    simp only [Bytes.split?_append rfl, htext]

theorem Exact.option {item : Codec α} {fits : α → Prop} (h : item.Exact fits) :
    (Codec.option item).Exact fun o => ∀ a ∈ o, fits a := by
  refine ⟨fun {b o rest} => ?_⟩
  simp only [Codec.option]
  constructor
  · intro hdecode
    split at hdecode
    · cases hdecode
    · next tag rest' =>
      split at hdecode
      · next htag =>
        cases hdecode
        exact ⟨by simp, by simp [htag]⟩
      · split at hdecode
        · next htag =>
          split at hdecode
          · next a rest'' ha =>
            cases hdecode
            obtain ⟨hfits, rfl⟩ := h.decode_iff.1 ha
            exact ⟨by simpa using hfits, by simp [htag]⟩
          · cases hdecode
        · cases hdecode
  · rintro ⟨hfits, rfl⟩
    cases o with
    | none => rfl
    | some a =>
      have ha : item.decode (item.encode a ++ rest) = .ok (a, rest) :=
        h.decode_iff.2 ⟨hfits a rfl, rfl⟩
      simp [ha]

theorem decodeMany_iff {item : Codec α} {fits : α → Prop} (h : item.Exact fits) (n : Nat)
    (read : List α) (b : Bytes) (l : List α) (rest : Bytes) :
    decodeMany item n read b = .ok (l, rest) ↔
      ∃ more : List α, l = read.reverse ++ more ∧ more.length = n ∧ (∀ a ∈ more, fits a) ∧
        b = more.flatMap item.encode ++ rest := by
  -- On the number of items to come; what was read before is kept in reverse.
  induction n generalizing read b with
  | zero =>
    rw [decodeMany]
    constructor
    · intro hdecode
      cases hdecode
      exact ⟨[], by simp⟩
    · rintro ⟨more, rfl, hlength, -, rfl⟩
      obtain rfl := List.eq_nil_of_length_eq_zero hlength
      simp
  | succ n ih =>
    rw [decodeMany]
    constructor
    · intro hdecode
      split at hdecode
      · cases hdecode
      · next a rest' ha =>
        obtain ⟨hfits, rfl⟩ := h.decode_iff.1 ha
        obtain ⟨more, rfl, hlength, hmore, rfl⟩ := (ih _ _).1 hdecode
        refine ⟨a :: more, by simp, by simp [hlength], ?_, by simp⟩
        simpa [hfits] using hmore
    · rintro ⟨more, rfl, hlength, hmore, rfl⟩
      obtain ⟨a, more, rfl⟩ := List.exists_cons_of_length_eq_add_one hlength
      have ha : item.decode ((a :: more).flatMap item.encode ++ rest) =
          .ok (a, more.flatMap item.encode ++ rest) :=
        h.decode_iff.2 ⟨hmore a List.mem_cons_self, by simp⟩
      rw [ha]
      exact (ih _ _).2 ⟨more, by simp, by simpa using hlength,
        fun x hx => hmore x (List.mem_cons_of_mem _ hx), rfl⟩

theorem Exact.list {item : Codec α} {fits : α → Prop} (h : item.Exact fits) :
    (Codec.list item).Exact fun l => l.length < countable ∧ ∀ a ∈ l, fits a := by
  refine ⟨fun {b l rest} => ?_⟩
  simp only [Codec.list]
  constructor
  · intro hdecode
    split at hdecode
    · cases hdecode
    · next n rest' hn =>
      obtain ⟨hlt, rfl⟩ := exact_count.decode_iff.1 hn
      obtain ⟨more, rfl, rfl, hmore, rfl⟩ := (decodeMany_iff h _ _ _ _ _).1 hdecode
      exact ⟨⟨by simpa using hlt, by simpa using hmore⟩, by simp⟩
  · rintro ⟨⟨hlt, hfits⟩, rfl⟩
    have hcount : count.decode (count.encode l.length ++ l.flatMap item.encode ++ rest) =
        .ok (l.length, l.flatMap item.encode ++ rest) := exact_count.decode_iff.2 ⟨hlt, by simp⟩
    rw [hcount]
    exact (decodeMany_iff h _ _ _ _ _).2 ⟨l, by simp, rfl, hfits, rfl⟩

section Lengths

theorem length_number (width : Nat) (toNat : α → Nat) (ofNat : Nat → α) (a : α) :
    ((number width toNat ofNat).encode a).length = width :=
  Bytes.length_littleEndian _ _

theorem length_choice (all : List α) (index : α → Nat) (a : α) :
    ((choice all index).encode a).length = 4 :=
  Bytes.length_littleEndian _ _

theorem length_fixed {n : Nat} (a : FixedBytes n) : ((fixed n).encode a).length = n :=
  a.length_bytes

theorem length_map (c : Codec α) (forth : α → β) (back : β → α) (x : β) :
    ((c.map forth back).encode x).length = (c.encode (back x)).length :=
  rfl

theorem length_pair (c : Codec α) (d : Codec β) (x : α × β) :
    ((c.pair d).encode x).length = (c.encode x.1).length + (d.encode x.2).length :=
  List.length_append

theorem length_bytes (b : Bytes) : (Codec.bytes.encode b).length = 8 + b.length := by
  rw [Codec.bytes, List.length_append, count, length_number]

theorem length_text (s : String) :
    (Codec.text.encode s).length = 8 + (Text.Utf8.encode s).length :=
  length_bytes _

theorem length_countedFixed {n : Nat} (a : FixedBytes n) :
    ((countedFixed n).encode a).length = 8 + n := by
  rw [countedFixed, List.length_append, count, length_number, a.length_bytes]

theorem length_list {item : Codec α} {size : Nat} (h : ∀ a, (item.encode a).length = size)
    (l : List α) : ((Codec.list item).encode l).length = 8 + size * l.length := by
  have hitems : (l.flatMap item.encode).length = size * l.length := by
    rw [List.length_flatMap]
    simp only [h, List.map_const', List.sum_replicate_nat, Nat.mul_comm]
  rw [Codec.list, List.length_append, count, length_number, hitems]

end Lengths

end Concord.Wire.Codec

namespace Concord

open Wire.Codec

theorem Digest.exact_codec : Digest.codec.Exact fun _ => True :=
  (exact_fixed 32).map (fun _ => rfl) fun _ => rfl

theorem PublicKey.exact_codec : PublicKey.codec.Exact fun _ => True :=
  (exact_fixed 32).map (fun _ => rfl) fun _ => rfl

theorem Signature.exact_codec : Signature.codec.Exact fun _ => True :=
  (exact_countedFixed (by decide)).map (fun _ => rfl) fun _ => rfl

theorem Phase.exact_codec : Phase.codec.Exact fun _ => True :=
  exact_choice (fun a => by cases a <;> rfl) (by decide) (by decide)

theorem MessageKind.exact_codec : MessageKind.codec.Exact fun _ => True :=
  exact_choice (fun a => by cases a <;> rfl) (by decide) (by decide)

def Payload.Fits (p : Payload) : Prop := p.data.length < countable

instance (p : Payload) : Decidable p.Fits := inferInstanceAs (Decidable (_ < _))

theorem Payload.exact_codec : Payload.codec.Exact Payload.Fits :=
  ((Digest.exact_codec.pair exact_bytes).map (fun _ => rfl) fun _ => rfl).congr
    fun _ => by simp [Payload.Fits]

theorem Subject.exact_codec : Subject.codec.Exact fun s => s.payload.Fits :=
  ((Phase.exact_codec.pair (exact_u64.pair (Payload.exact_codec.pair Digest.exact_codec))).map
    (fun _ => rfl) fun _ => rfl).congr fun _ => by simp

theorem Vote.exact_codec : Vote.codec.Exact fun _ => True :=
  ((PublicKey.exact_codec.pair Signature.exact_codec).map (fun _ => rfl) fun _ => rfl).congr
    fun _ => by simp

theorem Payload.length_encode (p : Payload) :
    (Payload.codec.encode p).length = 40 + p.data.length := by
  simp only [Payload.codec, Digest.codec, length_map, length_pair, length_fixed, length_bytes]
  omega

theorem Vote.length_encode (v : Vote) : (Vote.codec.encode v).length = 104 := by
  simp only [Vote.codec, PublicKey.codec, Signature.codec, length_map, length_pair, length_fixed,
    length_countedFixed]

structure Certificate.Fits (c : Certificate) : Prop where
  payload : c.payload.Fits
  votes : c.votes.length < countable

instance (c : Certificate) : Decidable c.Fits :=
  decidable_of_iff (c.payload.Fits ∧ c.votes.length < countable)
    ⟨fun h => ⟨h.1, h.2⟩, fun h => ⟨h.payload, h.votes⟩⟩

theorem Certificate.exact_codec : Certificate.codec.Exact Certificate.Fits :=
  ((Subject.exact_codec.pair Vote.exact_codec.list).map (fun _ => rfl) fun _ => rfl).congr
    fun c => by
      constructor
      · rintro ⟨hpayload, hvotes, -⟩
        exact ⟨hpayload, hvotes⟩
      · rintro ⟨hpayload, hvotes⟩
        exact ⟨hpayload, hvotes, fun _ _ => trivial⟩

theorem Certificate.length_encode (c : Certificate) :
    (Certificate.codec.encode c).length = 92 + c.payload.data.length + 104 * c.votes.length := by
  simp only [Certificate.codec, Subject.codec, Phase.codec, Digest.codec, u64, length_map,
    length_pair, length_fixed, length_choice, length_number, length_list Vote.length_encode,
    Payload.length_encode, Certificate.payload]
  omega

structure Body.Fits (b : Body) : Prop where
  payload : b.payload.Fits
  justify : b.justify.Fits

instance (b : Body) : Decidable b.Fits :=
  decidable_of_iff (b.payload.Fits ∧ b.justify.Fits)
    ⟨fun h => ⟨h.1, h.2⟩, fun h => ⟨h.payload, h.justify⟩⟩

theorem Body.exact_codec : Body.codec.Exact Body.Fits :=
  ((exact_u64.pair (Phase.exact_codec.pair (Payload.exact_codec.pair
    (Certificate.exact_codec.pair (Digest.exact_codec.pair Digest.exact_codec))))).map
    (fun _ => rfl) fun _ => rfl).congr fun b => by
      constructor
      · rintro ⟨-, -, hpayload, hjustify, -⟩
        exact ⟨hpayload, hjustify⟩
      · rintro ⟨hpayload, hjustify⟩
        exact ⟨trivial, trivial, hpayload, hjustify, trivial, trivial⟩

theorem Body.length_encode (b : Body) : (Body.codec.encode b).length =
    208 + b.payload.data.length + b.justify.payload.data.length + 104 * b.justify.votes.length := by
  simp only [Body.codec, Phase.codec, Digest.codec, u64, length_map, length_pair, length_fixed,
    length_choice, length_number, Payload.length_encode, Certificate.length_encode]
  omega

theorem Body.fits_of_length {b : Body} (h : (Body.codec.encode b).length < countable) : b.Fits := by
  rw [Body.length_encode] at h
  exact ⟨by unfold Payload.Fits; omega, by unfold Payload.Fits; omega, by omega⟩

/-- The bytes that the identity of a node is the digest of. -/
def Body.content (b : Body) : Bytes := Body.codec.encode { b with id := Digest.zero }

theorem Body.Fits.unnamed {b : Body} (h : b.Fits) : ({ b with id := Digest.zero } : Body).Fits :=
  ⟨h.payload, h.justify⟩

theorem Body.eq_of_content {a b : Body} (ha : a.Fits) (hb : b.Fits) (hid : a.id = b.id)
    (h : a.content = b.content) : a = b := by
  have hunnamed : { a with id := Digest.zero } = { b with id := Digest.zero } :=
    Body.exact_codec.encode_inj ha.unnamed hb.unnamed h
  obtain ⟨hview, hphase, hpayload, hjustify, -, hparent⟩ := Body.mk.inj hunnamed
  obtain ⟨view, phase, payload, justify, id, parentId⟩ := a
  obtain rfl := hid
  dsimp only at hview hphase hpayload hjustify hparent
  subst hview hphase hpayload hjustify hparent
  rfl

theorem SignedBody.exact_codec : SignedBody.codec.Exact fun m => m.body.Fits :=
  ((Body.exact_codec.pair (PublicKey.exact_codec.pair
    (Signature.exact_codec.pair Signature.exact_codec))).map (fun _ => rfl) fun _ => rfl).congr
    fun m => by simp

structure Envelope.Fits (e : Envelope) : Prop where
  family : (Text.Utf8.encode e.family).length < countable
  content : e.content.length < countable

theorem Envelope.exact_codec : Envelope.codec.Exact Envelope.Fits :=
  ((exact_text.pair (exact_u16.pair (MessageKind.exact_codec.pair exact_bytes))).map
    (fun _ => rfl) fun _ => rfl).congr fun e => by
      constructor
      · rintro ⟨hfamily, -, -, hcontent⟩
        exact ⟨hfamily, hcontent⟩
      · rintro ⟨hfamily, hcontent⟩
        exact ⟨hfamily, trivial, trivial, hcontent⟩

theorem Envelope.length_toBytes (e : Envelope) :
    e.toBytes.length = 22 + (Text.Utf8.encode e.family).length + e.content.length := by
  simp only [Envelope.toBytes, Envelope.codec, MessageKind.codec, u16, length_map, length_pair,
    length_text, length_number, length_choice, length_bytes]
  omega

theorem Envelope.fits_of_length {e : Envelope} (h : e.toBytes.length < countable) : e.Fits := by
  rw [Envelope.length_toBytes] at h
  exact ⟨by omega, by omega⟩

theorem Letter.length_envelope (l : Letter) : l.envelope.toBytes.length =
    206 + (Body.codec.encode l.body).length := by
  have hfamily : (Text.Utf8.encode l.envelope.family).length = 8 := by
    rw [Text.Utf8.encode, Text.Utf8.toList_eq]
    rfl
  have hcontent : l.envelope.content.length = (Body.codec.encode l.body).length + 176 := by
    simp only [Letter.envelope, Letter.body, Envelope.ofContent, SignedBody.codec, PublicKey.codec,
      Signature.codec, length_map, length_pair, length_fixed, length_countedFixed]
  rw [Envelope.length_toBytes, hfamily, hcontent]
  omega

theorem Letter.fits_of_length {l : Letter} (h : l.envelope.toBytes.length < countable) :
    l.body.Fits := by
  rw [Letter.length_envelope] at h
  exact Body.fits_of_length (by omega)

theorem Envelope.ofBytes_toBytes {e : Envelope} (h : e.Fits) :
    Envelope.ofBytes e.toBytes = .ok e := by
  have hread : Envelope.codec.read (Envelope.codec.encode e) = .ok e := Envelope.exact_codec.read h
  rw [Envelope.ofBytes, Envelope.toBytes, hread]

theorem Envelope.fits_of_open? {e : Envelope} {m : SignedBody} (h : e.open? = .ok m) :
    m.body.Fits := by
  unfold Envelope.open? at h
  split at h
  · next m' hread =>
    obtain rfl := Except.ok.inj h
    exact SignedBody.exact_codec.fits_of_read hread
  · cases h

theorem Letter.open?_envelope {l : Letter} (h : l.body.Fits) : l.envelope.open? = .ok l.signed := by
  have hread : SignedBody.codec.read (SignedBody.codec.encode l.signed) = .ok l.signed :=
    SignedBody.exact_codec.read h
  simp [Envelope.open?, Letter.envelope, Envelope.ofContent, hread]

end Concord
