import Concord.Proofs.Codec
import Concord.Transport.Server

/-!
Consequences of exact encodings. Each value has one encoding, no encoding is a prefix of another
one, and the digest of an encoding is a digest of the value.
-/

namespace Concord.Wire

variable {α β : Type}

/-- Values that fit are read back whatever follows, and what is read fits and is encoded in
front. -/
structure Codec.Canonical (c : Codec α) (fits : α → Prop) : Prop where
  read_append : ∀ {a : α}, fits a → ∀ rest : Bytes, c.read (c.encode a ++ rest) = .ok a
  begins_of_read : ∀ {b : Bytes} {a : α}, c.read b = .ok a → fits a ∧ c.encode a <+: b

theorem Codec.Exact.canonical {c : Codec α} {fits : α → Prop} (h : c.Exact fits) :
    c.Canonical fits where
  read_append {a} ha rest := by
    have hdecode : c.decode (c.encode a ++ rest) = .ok (a, rest) := h.decode_iff.2 ⟨ha, rfl⟩
    rw [Codec.read, hdecode]
  begins_of_read {b a} hread := by
    refine ⟨h.fits_of_read hread, ?_⟩
    unfold Codec.read at hread
    split at hread
    · next a' rest hdecode =>
      cases hread
      exact ⟨rest, (h.decode_iff.1 hdecode).2.symm⟩
    · cases hread

/-- The bytes of `a` determine `told a`, and no such bytes begin with others. -/
structure Delimited (encode : α → Bytes) (fits : α → Prop) (told : α → β) : Prop where
  told_inj : ∀ {a b : α}, fits a → fits b → encode a = encode b → told a = told b
  eq_of_begins : ∀ {a b : α}, fits a → fits b → encode a <+: encode b → encode a = encode b

theorem Codec.Canonical.eq_of_begins {c : Codec α} {fits : α → Prop} (h : c.Canonical fits)
    {a b : α} (ha : fits a) (hb : fits b) (hbegins : c.encode a <+: c.encode b) : a = b := by
  obtain ⟨rest, hrest⟩ := hbegins
  -- The longer encoding is read as both values.
  have hread : c.read (c.encode b) = .ok b := by simpa using h.read_append hb []
  rw [← hrest, h.read_append ha rest] at hread
  exact Except.ok.inj hread

theorem Codec.Canonical.delimited {c : Codec β} {fits : β → Prop} (h : c.Canonical fits)
    {told : α → β} {fits' : α → Prop} (hfits : ∀ a, fits' a → fits (told a)) :
    Delimited (fun a => c.encode (told a)) fits' told where
  told_inj {a b} ha hb heq :=
    h.eq_of_begins (hfits a ha) (hfits b hb) (heq ▸ List.prefix_refl _)
  eq_of_begins {a b} ha hb hbegins :=
    congrArg c.encode (h.eq_of_begins (hfits a ha) (hfits b hb) hbegins)

end Concord.Wire

namespace Concord

open Wire

theorem Transport.Server.exact_replyCodec :
    Server.replyCodec.Exact fun reply => ∀ e ∈ reply, e.Fits :=
  Envelope.exact_codec.option

/-- Envelopes, signed bodies and replies have canonical encodings. The bytes hashed for votes, seals
and node identities are delimited. They determine the payload, the body, and the body without its
identity. -/
theorem formats_canonical :
    (Envelope.codec.Canonical Envelope.Fits ∧ SignedBody.codec.Canonical (fun m => m.body.Fits) ∧
      Transport.Server.replyCodec.Canonical fun reply => ∀ e ∈ reply, e.Fits) ∧
    (Delimited Payload.codec.encode Payload.Fits id ∧ Delimited Body.codec.encode Body.Fits id ∧
      Delimited Body.content Body.Fits fun b => { b with id := Digest.zero }) :=
  ⟨⟨Envelope.exact_codec.canonical, SignedBody.exact_codec.canonical,
      Transport.Server.exact_replyCodec.canonical⟩,
    Payload.exact_codec.canonical.delimited fun _ h => h,
    Body.exact_codec.canonical.delimited fun _ h => h,
    Body.exact_codec.canonical.delimited fun _ h => h.unnamed⟩

end Concord
