import Concord.Transport.Frame

/-!
The answering side of an exchange: one frame in, one frame out. A frame or message that cannot be
read is not answered at all.
-/

namespace Concord.Transport.Server

def replyCodec : Wire.Codec (Option Envelope) := Wire.Codec.option Envelope.codec

def answer {σ : Type} (handle : σ → Envelope → Option Envelope × σ) (s : σ) (incoming : Bytes) :
    Bytes × σ :=
  match Frame.read incoming with
  | .error _ => ([], s)
  | .ok (body, _) =>
    if body = [] then (reply none, s)
    else match Envelope.ofBytes body with
      | .error _ => ([], s)
      | .ok envelope =>
        let (message, s) := handle s envelope
        (reply message, s)
where
  /-- A reply too large for a frame is not sent. -/
  reply (message : Option Envelope) : Bytes :=
    match Frame.write (replyCodec.encode message) with
    | .ok b => b
    | .error _ => []

def answerAll {σ : Type} (handle : σ → Envelope → Option Envelope × σ) (s : σ) :
    List Bytes → List Bytes × σ
  | [] => ([], s)
  | incoming :: rest =>
    let (reply, s) := answer handle s incoming
    let (replies, s) := answerAll handle s rest
    (reply :: replies, s)

end Concord.Transport.Server
