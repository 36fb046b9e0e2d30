/-
# Frames on a stream

`wire.rs` and `stream.rs` of `itsanas-wire`: a message travels as a version byte, four length
bytes and the payload, and a `Connection` reads from its stream until one whole message has
arrived. A stream keeps no boundaries: what ties the reader to it is that the bytes it holds and
those still to come are, together, the frames it has not returned. So a whole frame at the front
is returned (`receiveFrom_frame`), and a part of one is held until the stream ends
(`receiveFrom_part`). A length is checked before anything is read towards it, which bounds what is
ever held (`receiveFrom_bounded`).
-/
import Itsanas.Lib.Records

namespace Itsanas.Wire

open Records (leBytes ofLe length_leBytes ofLe_leBytes)

def wireVersion : UInt8 := 1

/-- Bytes of header before the payload. -/
def headerLen : ℕ := 1 + 4

/-- The largest payload this build accepts. -/
def maxFrameLen : ℕ := 8 * 1024 * 1024

/-- The room `receive` gives one read. -/
def readLen : ℕ := 16 * 1024

/-- Everything that can go wrong reading a frame; `ε` is an error of the encoding. -/
inductive WireError (ε : Type)
  | encoding (cause : ε)
  | truncated
  | frameTooLarge (len most : ℕ)
  | unsupportedWireVersion (found supported : UInt8)
  deriving DecidableEq

/-- Everything that can go wrong on a framed stream. -/
inductive StreamError (ε : Type)
  | wire (cause : WireError ε)
  | io
  | truncatedClose
  deriving DecidableEq

/-- The encoding of the messages: it decodes what it encoded. -/
structure Postcard (ε μ : Type) where
  toStdvec : μ → Except ε (List UInt8)
  fromBytes : List UInt8 → Except ε μ
  fromBytes_toStdvec : ∀ message payload, toStdvec message = .ok payload →
    fromBytes payload = .ok message

variable {ε μ : Type}

/-- The header of a frame with `len` bytes of payload. -/
def headerOf (len : ℕ) : List UInt8 := wireVersion :: leBytes 4 len

/-- A message as a frame. -/
def encode (P : Postcard ε μ) (message : μ) : Except (WireError ε) (List UInt8) :=
  match P.toStdvec message with
  | .error cause => .error (.encoding cause)
  | .ok payload =>
    if maxFrameLen < payload.length then .error (.frameTooLarge payload.length maxFrameLen)
    else .ok (headerOf payload.length ++ payload)

/-- How much payload a header promises, or why it is unacceptable. -/
def payloadLen (header : List UInt8) : Except (WireError ε) ℕ :=
  match header with
  | [] => .error .truncated
  | version :: rest =>
    if header.length < headerLen then .error .truncated
    else if version ≠ wireVersion then .error (.unsupportedWireVersion version wireVersion)
    else if maxFrameLen < ofLe (rest.take 4) then
      .error (.frameTooLarge (ofLe (rest.take 4)) maxFrameLen)
    else .ok (ofLe (rest.take 4))

/-! ### The reader -/

/-- The bytes that wait for the rest of their frame. The code has `buffer` alone: `most` is how
many it has held at most, so that a bound on it speaks of every moment. -/
structure FrameReader where
  buffer : List UInt8
  most : ℕ
  deriving DecidableEq

namespace FrameReader

def new : FrameReader := ⟨[], 0⟩

def push (reader : FrameReader) (bytes : List UInt8) : FrameReader where
  buffer := reader.buffer ++ bytes
  most := max reader.most (reader.buffer.length + bytes.length)

def buffered (reader : FrameReader) : ℕ := reader.buffer.length

/-- The payload of the next complete frame, if one has arrived. -/
def nextFrame (reader : FrameReader) : Except (WireError ε) (Option (List UInt8)) × FrameReader :=
  if reader.buffer.length < headerLen then (.ok none, reader)
  else match payloadLen reader.buffer with
    | .error cause => (.error cause, reader)
    | .ok len =>
      if reader.buffer.length < headerLen + len then (.ok none, reader)
      else (.ok (some ((reader.buffer.take (headerLen + len)).drop headerLen)),
        { reader with buffer := reader.buffer.drop (headerLen + len) })

def nextMessage (P : Postcard ε μ) (reader : FrameReader) :
    Except (WireError ε) (Option μ) × FrameReader :=
  match reader.nextFrame with
  | (.error cause, reader) => (.error cause, reader)
  | (.ok none, reader) => (.ok none, reader)
  | (.ok (some payload), reader) =>
    match P.fromBytes payload with
    | .error cause => (.error (.encoding cause), reader)
    | .ok message => (.ok (some message), reader)

end FrameReader

/-! ### The stream -/

/-- What a read of the stream comes to: bytes, no more than there is room for and none at the end,
or an error. -/
inductive Delivery
  | read (bytes : {bytes : List UInt8 // bytes.length ≤ readLen})
  | failed

def Delivery.bytes : Delivery → List UInt8
  | .read bytes => bytes.1
  | .failed => []

/-- One end of a conversation: what its reads will come to, and after those the end. -/
structure Connection where
  stream : List Delivery
  reader : FrameReader

def Connection.new (stream : List Delivery) : Connection := ⟨stream, FrameReader.new⟩

/-- The stream has ended: between two messages, or within one. -/
def closed (reader : FrameReader) : Except (StreamError ε) (Option μ) :=
  if reader.buffered = 0 then .ok none else .error .truncatedClose

def receiveFrom (P : Postcard ε μ) :
    List Delivery → FrameReader → Except (StreamError ε) (Option μ) × Connection
  | stream, reader =>
    match reader.nextMessage P with
    | (.error cause, reader) => (.error (.wire cause), ⟨stream, reader⟩)
    | (.ok (some message), reader) => (.ok (some message), ⟨stream, reader⟩)
    | (.ok none, reader) =>
      match stream with
      | [] => (closed reader, ⟨[], reader⟩)
      | .failed :: rest => (.error .io, ⟨rest, reader⟩)
      | .read bytes :: rest =>
        if bytes.1 = [] then (closed reader, ⟨rest, reader⟩)
        else receiveFrom P rest (reader.push bytes.1)

/-- Read until one whole message has arrived. -/
def Connection.receive (P : Postcard ε μ) (c : Connection) :
    Except (StreamError ε) (Option μ) × Connection :=
  receiveFrom P c.stream c.reader

/-- What successive calls return. -/
def Connection.receives (P : Postcard ε μ) :
    ℕ → Connection → List (Except (StreamError ε) (Option μ)) × Connection
  | 0, c => ([], c)
  | n + 1, c =>
    let (result, c) := c.receive P
    let (results, c) := Connection.receives P n c
    (result :: results, c)

/-! ### A frame and its parts -/

@[simp] theorem length_headerOf (len : ℕ) : (headerOf len).length = headerLen := by
  simp [headerOf, headerLen]

theorem encode_eq_ok {P : Postcard ε μ} {message : μ} {frame : List UInt8}
    (h : encode P message = .ok frame) :
    ∃ payload, P.fromBytes payload = .ok message ∧ payload.length ≤ maxFrameLen ∧
      frame = headerOf payload.length ++ payload := by
  unfold encode at h
  cases hpayload : P.toStdvec message with
  | error cause => simp [hpayload] at h
  | ok payload =>
    simp only [hpayload] at h
    split_ifs at h with hlen
    exact ⟨payload, P.fromBytes_toStdvec _ _ hpayload, not_lt.mp hlen, (Except.ok.inj h).symm⟩

theorem payloadLen_headerOf {len : ℕ} (h : len ≤ maxFrameLen) (rest : List UInt8) :
    @payloadLen ε (headerOf len ++ rest) = .ok len := by
  have hlen : ¬ (headerOf len ++ rest).length < headerLen := by simp
  have hbytes : ofLe ((leBytes 4 len ++ rest).take 4) = len := by
    rw [List.take_left' (length_leBytes 4 len)]
    exact ofLe_leBytes (h.trans_lt (by decide))
  unfold headerOf at hlen ⊢
  rw [List.cons_append] at hlen ⊢
  simp only [payloadLen, hbytes]
  rw [if_neg hlen, if_neg (not_not.mpr rfl), if_neg (not_lt.mpr h)]

theorem payloadLen_le {header : List UInt8} {len : ℕ} (h : @payloadLen ε header = .ok len) :
    len ≤ maxFrameLen := by
  unfold payloadLen at h
  split at h
  · cases h
  · split_ifs at h with _ _ hlen
    cases h
    exact not_lt.mp hlen

variable {reader : FrameReader}

namespace FrameReader
variable {P : Postcard ε μ} {message : μ} {frame : List UInt8}

/-- A whole frame at the front is taken off. -/
theorem nextMessage_frame (hframe : encode P message = .ok frame) {rest : List UInt8}
    (h : reader.buffer = frame ++ rest) :
    reader.nextMessage P = (.ok (some message), { reader with buffer := rest }) := by
  obtain ⟨payload, hmessage, hlen, rfl⟩ := encode_eq_ok hframe
  have htotal : (headerOf payload.length ++ payload).length = headerLen + payload.length := by simp
  have hnext : @nextFrame ε reader = (.ok (some payload), { reader with buffer := rest }) := by
    unfold nextFrame
    rw [h, if_neg (by simp), List.append_assoc, payloadLen_headerOf hlen, ← List.append_assoc]
    dsimp only
    rw [if_neg (by simp), List.take_left' htotal, List.drop_left' htotal,
      List.drop_left' (length_headerOf _)]
  simp only [nextMessage, hnext, hmessage]

/-- A part of a frame is left where it is. -/
theorem nextMessage_part (hframe : encode P message = .ok frame)
    (h : reader.buffer <+: frame) (hlen : reader.buffer.length < frame.length) :
    reader.nextMessage P = (.ok none, reader) := by
  obtain ⟨payload, -, hmost, rfl⟩ := encode_eq_ok hframe
  have hnext : @nextFrame ε reader = (.ok none, reader) := by
    unfold nextFrame
    by_cases hheader : reader.buffer.length < headerLen
    · rw [if_pos hheader]
    · have hstarts : headerOf payload.length <+: reader.buffer :=
        List.prefix_of_prefix_length_le (List.prefix_append _ _) h (by simpa using hheader)
      obtain ⟨part, hpart⟩ := hstarts
      have hpayload : @payloadLen ε reader.buffer = .ok payload.length := by
        rw [← hpart]
        exact payloadLen_headerOf hmost part
      rw [if_neg hheader, hpayload]
      dsimp only
      rw [if_pos (by simpa using hlen)]
  simp only [nextMessage, hnext]

/-- What is held while nothing can be returned is less than one frame. -/
theorem nextMessage_none {reader after : FrameReader} (h : reader.nextMessage P = (.ok none, after)) :
    after = reader ∧ reader.buffer.length < headerLen + maxFrameLen := by
  have hnext : @nextFrame ε reader = (.ok none, after) := by
    unfold nextMessage at h
    split at h
    · cases h
    · next hnext =>
      rw [hnext]
      exact Prod.ext rfl (Prod.mk.inj h).2
    · split at h <;> cases h
  unfold nextFrame at hnext
  split_ifs at hnext with hheader
  · exact ⟨(Prod.mk.inj hnext).2.symm, by omega⟩
  · split at hnext
    · cases hnext
    · next len hlen =>
      have hmost := payloadLen_le hlen
      split_ifs at hnext with hpart
      · exact ⟨(Prod.mk.inj hnext).2.symm, by omega⟩
      · cases hnext

/-- Taking a message off holds no more than before. -/
theorem nextMessage_held (P : Postcard ε μ) (reader : FrameReader) :
    (reader.nextMessage P).2.most = reader.most ∧
      (reader.nextMessage P).2.buffer.length ≤ reader.buffer.length := by
  have hnext : (@nextFrame ε reader).2.most = reader.most ∧
      (@nextFrame ε reader).2.buffer.length ≤ reader.buffer.length := by
    unfold nextFrame
    split_ifs
    · exact ⟨rfl, le_rfl⟩
    · split
      · exact ⟨rfl, le_rfl⟩
      · split_ifs
        · exact ⟨rfl, le_rfl⟩
        · exact ⟨rfl, by simp⟩
  unfold nextMessage
  split
  · next he => rwa [he] at hnext
  · next he => rwa [he] at hnext
  · next he =>
    rw [he] at hnext
    split <;> exact hnext

end FrameReader

/-! ### One call -/

/-- The bytes that have not been returned: those held and those still to come. -/
def Connection.pending (c : Connection) : List UInt8 :=
  c.reader.buffer ++ c.stream.flatMap Delivery.bytes

/-- A stream that hands over bytes with every read until it ends. -/
def Delivers (stream : List Delivery) : Prop := ∀ d ∈ stream, d.bytes ≠ []

section
variable {P : Postcard ε μ} {message : μ} {frame : List UInt8}

/-- Reading on, when nothing can be returned yet. -/
theorem receiveFrom_read (hnone : reader.nextMessage P = (.ok none, reader))
    {d : Delivery} {stream : List Delivery} (hd : d.bytes ≠ []) :
    receiveFrom P (d :: stream) reader = receiveFrom P stream (reader.push d.bytes) := by
  cases d with
  | failed => exact absurd rfl hd
  | read bytes =>
    rw [receiveFrom, hnone]
    exact if_neg hd

/-- **A whole frame is returned.** The rest of the stream is left pending. -/
theorem receiveFrom_frame (hframe : encode P message = .ok frame) {rest : List UInt8} :
    ∀ (stream : List Delivery) (reader : FrameReader), Delivers stream →
      (Connection.mk stream reader).pending = frame ++ rest →
      ∃ c, receiveFrom P stream reader = (.ok (some message), c) ∧ c.pending = rest ∧
        Delivers c.stream := by
  intro stream
  induction stream with
  | nil =>
    intro reader hdelivers hpending
    have hbuffer : reader.buffer = frame ++ rest := by simpa [Connection.pending] using hpending
    refine ⟨_, by rw [receiveFrom, reader.nextMessage_frame hframe hbuffer], ?_, hdelivers⟩
    simp [Connection.pending]
  | cons d stream ih =>
    intro reader hdelivers hpending
    by_cases hlen : reader.buffer.length < frame.length
    · -- part of the frame: whatever is read next belongs to it, or follows it
      have hpart : reader.buffer <+: frame :=
        List.prefix_of_prefix_length_le ⟨_, hpending⟩ (List.prefix_append _ _) hlen.le
      rw [receiveFrom_read (reader.nextMessage_part hframe hpart hlen)
        (hdelivers d List.mem_cons_self)]
      refine ih _ (fun d hd => hdelivers d (List.mem_cons_of_mem _ hd)) ?_
      rw [← hpending]
      simp [Connection.pending, FrameReader.push]
    · have hwhole : frame <+: reader.buffer :=
        List.prefix_of_prefix_length_le ⟨_, hpending.symm⟩ (List.prefix_append _ _) (not_lt.mp hlen)
      obtain ⟨held, hheld⟩ := hwhole
      refine ⟨_, by rw [receiveFrom, reader.nextMessage_frame hframe hheld.symm], ?_, hdelivers⟩
      have hrest : frame ++ (held ++ (d :: stream).flatMap Delivery.bytes) = frame ++ rest := by
        rw [← hpending, Connection.pending, ← hheld, List.append_assoc]
      exact List.append_cancel_left hrest

/-- **A part of a frame is never returned.** It is held until the stream has ended. -/
theorem receiveFrom_part (hframe : encode P message = .ok frame) :
    ∀ (stream : List Delivery) (reader : FrameReader), Delivers stream →
      (Connection.mk stream reader).pending <+: frame →
      (Connection.mk stream reader).pending.length < frame.length →
      ∃ c, receiveFrom P stream reader = (closed c.reader, c) ∧ c.stream = [] ∧
        c.reader.buffer = (Connection.mk stream reader).pending := by
  intro stream
  induction stream with
  | nil =>
    intro reader _ hpart hlen
    have hpending : (Connection.mk [] reader).pending = reader.buffer := by simp [Connection.pending]
    rw [hpending] at hpart hlen
    exact ⟨⟨[],
      reader⟩, by rw [receiveFrom, reader.nextMessage_part hframe hpart hlen], rfl, hpending.symm⟩
  | cons d stream ih =>
    intro reader hdelivers hpart hlen
    have hpush : (Connection.mk stream (reader.push d.bytes)).pending =
        (Connection.mk (d :: stream) reader).pending := by
      simp [Connection.pending, FrameReader.push]
    have hbuffer : reader.buffer <+: frame := (List.prefix_append _ _).trans hpart
    have hless : reader.buffer.length < frame.length :=
      lt_of_le_of_lt (List.prefix_append _ _).length_le hlen
    rw [receiveFrom_read (reader.nextMessage_part hframe hbuffer hless)
      (hdelivers d List.mem_cons_self),
      ← hpush]
    exact ih _ (fun d hd => hdelivers d (List.mem_cons_of_mem _ hd)) (hpush ▸ hpart) (hpush ▸ hlen)

/-- After the last frame there is nothing to read. -/
theorem receiveFrom_nil {stream : List Delivery} (hdelivers : Delivers stream)
    (hpending : (Connection.mk stream reader).pending = []) :
    stream = [] ∧ receiveFrom P stream reader = (.ok none, ⟨[], reader⟩) := by
  obtain ⟨hbuffer, hstream⟩ := List.append_eq_nil_iff.mp hpending
  have hnil : stream = [] := List.eq_nil_iff_forall_not_mem.mpr fun d hd =>
    hdelivers d hd (List.flatMap_eq_nil_iff.mp hstream d hd)
  dsimp only at hbuffer
  have hnone : reader.nextMessage P = (.ok none, reader) := by
    have hnext : @FrameReader.nextFrame ε reader = (.ok none, reader) := by
      rw [FrameReader.nextFrame, hbuffer]
      exact if_pos (by decide)
    simp only [FrameReader.nextMessage, hnext]
  subst hnil
  refine ⟨rfl, ?_⟩
  rw [receiveFrom, hnone]
  simp [closed, FrameReader.buffered, hbuffer]

end

/-! ### All calls -/

/-- How many of the frames are whole within the first `n` bytes. -/
def whole : List (List UInt8) → ℕ → ℕ
  | [], _ => 0
  | frame :: frames, n => if frame.length ≤ n then whole frames (n - frame.length) + 1 else 0

section
variable {P : Postcard ε μ}

theorem receives_succ {c c' : Connection} {result : Except (StreamError ε) (Option μ)}
    (h : c.receive P = (result, c')) (n : ℕ) :
    (c.receives P (n + 1)).1 = result :: (c'.receives P n).1 := by
  simp only [Connection.receives, h]

/-- A call that leaves the connection as it is gives the same again. -/
theorem receives_same {c : Connection} {result : Except (StreamError ε) (Option μ)}
    (h : c.receive P = (result, c)) : ∀ n, (c.receives P n).1 = List.replicate n result
  | 0 => rfl
  | n + 1 => by rw [receives_succ h, receives_same h n, List.replicate_succ]

/-- Once only a part of a frame is pending, every call says so. -/
theorem receives_part {message : μ} {frame : List UInt8} (hframe : encode P message = .ok frame)
    {c : Connection} (hdelivers : Delivers c.stream) (hpart : c.pending <+: frame)
    (hlen : c.pending.length < frame.length) (n : ℕ) :
    (c.receives P (n + 1)).1 =
      List.replicate (n + 1) (if c.pending = [] then .ok none else .error .truncatedClose) := by
  obtain ⟨⟨stream, held⟩, hreceive, rfl, hbuffer⟩ :=
    receiveFrom_part hframe c.stream c.reader hdelivers hpart hlen
  dsimp only at hreceive hbuffer
  have hagain : (Connection.mk [] held).receive P = (closed held, ⟨[], held⟩) := by
    rw [Connection.receive, receiveFrom,
      held.nextMessage_part hframe (hbuffer ▸ hpart) (hbuffer ▸ hlen)]
  have hclosed : (closed held : Except (StreamError ε) (Option μ)) =
      if c.pending = [] then .ok none else .error .truncatedClose := by
    rw [closed, FrameReader.buffered, hbuffer]
    simp only [List.length_eq_zero_iff]
  rw [receives_succ hreceive, receives_same hagain, ← List.replicate_succ, hclosed]

/-- **What successive calls return.** The messages whose frames are whole in what is pending, in
order, and then whether the stream ended between two of them. -/
theorem receives_frames {messages : List μ} {frames : List (List UInt8)}
    (hframes : List.Forall₂ (fun message frame => encode P message = .ok frame) messages frames) :
    ∀ c : Connection, Delivers c.stream → c.pending <+: frames.flatten → ∀ n,
      (c.receives P (whole frames c.pending.length + (n + 1))).1 =
        (messages.take (whole frames c.pending.length)).map (fun message => .ok (some message)) ++
          List.replicate (n + 1)
            (if c.pending = (frames.take (whole frames c.pending.length)).flatten then .ok none
              else .error .truncatedClose) := by
  induction hframes with
  | nil =>
    intro c hdelivers hpending n
    have hnil : c.pending = [] := List.prefix_nil.mp hpending
    obtain ⟨hstream, hreceive⟩ := receiveFrom_nil (P := P) hdelivers hnil
    have hsame : c.receive P = (.ok none, c) := hreceive.trans (Prod.ext rfl (by rw [← hstream]))
    rw [whole, Nat.zero_add, receives_same hsame]
    simp [hnil]
  | @cons message frame messages frames hframe hframes ih =>
    intro c hdelivers hpending n
    rw [List.flatten_cons] at hpending
    by_cases hlen : frame.length ≤ c.pending.length
    · obtain ⟨rest, hrest⟩ := List.prefix_of_prefix_length_le (List.prefix_append _ _) hpending hlen
      obtain ⟨next, hreceive, hnext, hdelivers⟩ :=
        receiveFrom_frame hframe c.stream c.reader hdelivers hrest.symm
      have hafter : next.pending <+: frames.flatten := by
        rw [hnext]
        rwa [← hrest, List.prefix_append_right_inj] at hpending
      have hcount : whole (frame :: frames) c.pending.length =
          whole frames next.pending.length + 1 := by
        rw [whole, if_pos hlen, hnext, ← hrest, List.length_append, Nat.add_sub_cancel_left]
      rw [hcount, Nat.add_right_comm, receives_succ hreceive, ih next hdelivers hafter n]
      simp only [List.take_succ_cons, List.map_cons, List.flatten_cons, List.cons_append]
      rw [← hrest, hnext]
      simp only [List.append_right_inj]
    · have hcount : whole (frame :: frames) c.pending.length = 0 := by rw [whole, if_neg hlen]
      have hpart : c.pending <+: frame :=
        List.prefix_of_prefix_length_le hpending (List.prefix_append _ _) (not_le.mp hlen).le
      rw [hcount, Nat.zero_add, receives_part hframe hdelivers hpart (not_le.mp hlen)]
      by_cases hnil : c.pending = [] <;> simp [hnil]

/-! ### How much is held -/

/-- What a reader has ever held is at most a header, a maximal frame and a read. -/
structure Bounded (reader : FrameReader) : Prop where
  held : reader.buffer.length ≤ reader.most
  most : reader.most ≤ headerLen + maxFrameLen + readLen

theorem Bounded.nextMessage (h : Bounded reader) :
    Bounded (reader.nextMessage P).2 := by
  obtain ⟨hmost, hbuffer⟩ := reader.nextMessage_held P
  exact ⟨hmost ▸ hbuffer.trans h.held, hmost ▸ h.most⟩

/-- A read is made only below one frame. -/
theorem Bounded.push {reader after : FrameReader} (h : Bounded reader)
    (hnone : reader.nextMessage P = (.ok none, after)) {bytes : List UInt8}
    (hread : bytes.length ≤ readLen) :
    Bounded (after.push bytes) := by
  obtain ⟨rfl, hbuffer⟩ := FrameReader.nextMessage_none hnone
  have hmost := h.most
  refine ⟨?_, ?_⟩
  · simp [FrameReader.push]
  · refine max_le hmost ?_
    omega

theorem receiveFrom_bounded : ∀ (stream : List Delivery) (reader : FrameReader), Bounded reader →
    Bounded (receiveFrom P stream reader).2.reader := by
  intro stream
  induction stream with
  | nil =>
    intro reader h
    have hnext := h.nextMessage (P := P)
    unfold receiveFrom
    split <;> next he => rwa [he] at hnext
  | cons d stream ih =>
    intro reader h
    have hnext := h.nextMessage (P := P)
    unfold receiveFrom
    split
    · next he => rwa [he] at hnext
    · next he => rwa [he] at hnext
    · next he =>
      cases d with
      | failed => rwa [he] at hnext
      | read bytes =>
        dsimp only
        split_ifs
        · rwa [he] at hnext
        · exact ih _ (h.push he bytes.2)

theorem receives_bounded : ∀ (n : ℕ) (c : Connection), Bounded c.reader →
    Bounded (c.receives P n).2.reader
  | 0, _, h => h
  | n + 1, c, h => receives_bounded n _ (receiveFrom_bounded c.stream c.reader h)

end

/-- **Framing is faithful and bounded.** However the stream hands over a part of the frames sent,
successive calls return the messages whose frames it completed and then, for good, whether it
ended between frames; and whatever the stream hands over, the reader never holds more than one
header, one maximal frame and one read. -/
theorem framing_faithful (P : Postcard ε μ) :
    (∀ (messages : List μ) (frames : List (List UInt8)) (stream : List Delivery),
      List.Forall₂ (fun message frame => encode P message = .ok frame) messages frames →
      Delivers stream → stream.flatMap Delivery.bytes <+: frames.flatten →
      let delivered := stream.flatMap Delivery.bytes
      let count := whole frames delivered.length
      ∀ n, ((Connection.new stream).receives P (count + (n + 1))).1 =
        (messages.take count).map (fun message => .ok (some message)) ++
          List.replicate (n + 1) (if delivered = (frames.take count).flatten then .ok none
            else .error .truncatedClose)) ∧
    ∀ (stream : List Delivery) (n : ℕ),
      Bounded ((Connection.new stream).receives P n).2.reader := by
  refine ⟨?_, ?_⟩
  · intro messages frames stream hframes hdelivers hstarts
    exact receives_frames hframes (Connection.new stream) hdelivers hstarts
  · intro stream n
    exact receives_bounded n _ ⟨le_rfl, Nat.zero_le _⟩

/-- Messages of one byte, which are their own encoding. -/
def oneByte : Postcard Unit UInt8 where
  toStdvec message := .ok [message]
  fromBytes
    | [message] => .ok message
    | _ => .error ()
  fromBytes_toStdvec message payload h := by
    cases h
    rfl

/-- Two frames, handed over in two reads: the first ends within the header of the first frame, the
second within that of the second, where the stream ends. -/
def cutShort : List Delivery :=
  [.read ⟨[1, 1, 0], by decide⟩, .read ⟨[0, 0, 7, 1, 1], by decide⟩]

theorem framing_faithful_cutShort :
    ((Connection.new cutShort).receives oneByte 2).1 = [.ok (some 7), .error .truncatedClose] ∧
      Bounded ((Connection.new cutShort).receives oneByte 2).2.reader := by
  have hframes : List.Forall₂ (fun message frame => encode oneByte message = .ok frame) [7, 9]
      [[1, 1, 0, 0, 0, 7], [1, 1, 0, 0, 0, 9]] :=
    .cons (by decide +kernel) (.cons (by decide +kernel) .nil)
  have hdelivers : Delivers cutShort := by
    simp [Delivers, cutShort, Delivery.bytes]
  obtain ⟨hreturned, hbounded⟩ := framing_faithful oneByte
  exact ⟨hreturned _ _ cutShort hframes hdelivers (by decide +kernel) 0, hbounded cutShort 2⟩

end Itsanas.Wire
