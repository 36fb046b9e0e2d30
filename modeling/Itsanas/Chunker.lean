/-
# Splitting a stream

`split_stream` of `itsanas-store/src/chunker.rs`: a window is filled from the
reader until it holds a largest chunk or the reader has ended, one chunk is cut
off its front and handed to a callback, and so on until the window is empty. A
`Chunker` is what the loop asks of a configuration: a cut point that takes at
least a byte of a window that has one, and no more than the window.

A reader is the list of what its reads return: bytes, or a failure. An empty
read is its end, and so is the end of the list.
-/
import Itsanas.Lib.Walk
import Itsanas.Oplog

namespace Itsanas

open Walk

/-- A chunker configuration, as far as splitting goes. -/
structure Chunker where
  maxSize : ℕ
  /-- Offset of the first cut point, or the length if there is none. -/
  cutPoint : Bytes → ℕ
  maxSize_pos : 0 < maxSize
  cutPoint_pos : ∀ b, b ≠ [] → 0 < cutPoint b
  cutPoint_le : ∀ b, cutPoint b ≤ b.length

/-- What one read of the reader returns. -/
inductive ReadResult
  | data (bytes : Bytes)
  | failed
  deriving DecidableEq

/-- What a reader would still return. -/
abbrev Reader : Type := List ReadResult

/-- The bytes a reader yields before its end, `none` if it fails before. -/
def content : Reader → Option Bytes
  | [] => some []
  | .failed :: _ => none
  | .data [] :: _ => some []
  | .data (b :: bs) :: rest => (content rest).map ((b :: bs) ++ ·)

/-- Bytes a reader has left, at most. -/
def bytesLeft : Reader → ℕ
  | [] => 0
  | .failed :: rest => bytesLeft rest
  | .data bs :: rest => bs.length + bytesLeft rest

/-- Read until the buffer holds a window or the reader has ended. -/
def fill (window : ℕ) : Bytes → Reader → Except StoreError (Bytes × Reader × Bool)
  | buffer, reader =>
    if buffer.length < window then
      match reader with
      | [] => .ok (buffer, [], true)
      | .failed :: _ => .error .bareIo
      | .data [] :: rest => .ok (buffer, rest, true)
      | .data (b :: bs) :: rest => fill window (buffer ++ (b :: bs)) rest
    else .ok (buffer, reader, false)

variable {σ : Type}

/-- The loop of `splitStream`. Each turn takes a byte off the window, so `fuel`
above what is left to read is enough. -/
def splitLoop (c : Chunker) (onChunk : σ → Bytes → σ × Option StoreError) :
    ℕ → σ → Bytes → Reader → Bool → σ × Option StoreError
  | 0, s, _, _, _ => (s, none)
  | fuel + 1, s, buffer, reader, exhausted =>
    match (if exhausted then .ok (buffer, reader, true) else fill c.maxSize buffer reader) with
    | .error error => (s, some error)
    | .ok (buffer, reader, exhausted) =>
      if buffer.isEmpty then (s, none)
      else
        let cut := c.cutPoint buffer
        match onChunk s (buffer.take cut) with
        | (s, some error) => (s, some error)
        | (s, none) => splitLoop c onChunk fuel s (buffer.drop cut) reader exhausted

/-- Split a stream into chunks, handing each to `onChunk` in order. The first
error stops the walk. -/
def splitStream (c : Chunker) (reader : Reader) (onChunk : σ → Bytes → σ × Option StoreError)
    (s : σ) : σ × Option StoreError :=
  splitLoop c onChunk (bytesLeft reader + 1) s [] reader false

/-! ### What filling does -/

/-- The bytes still to come, given whether the reader has ended. -/
def remaining (reader : Reader) (exhausted : Bool) : Option Bytes :=
  if exhausted then some [] else content reader

/-- What filling `buffer` from `reader` may return: no byte is lost, none appears,
and an empty buffer is left only at the end of the reader. -/
def Filled (buffer : Bytes) (reader : Reader) : Except StoreError (Bytes × Reader × Bool) → Prop
  | .error _ => content reader = none
  | .ok (buffer', reader', exhausted) =>
    (content reader).map (buffer ++ ·) = (remaining reader' exhausted).map (buffer' ++ ·) ∧
      buffer'.length + bytesLeft reader' ≤ buffer.length + bytesLeft reader ∧
      (buffer' = [] → exhausted = true)

theorem fill_spec {window : ℕ} (hw : 0 < window) (reader : Reader) (buffer : Bytes) :
    Filled buffer reader (fill window buffer reader) := by
  induction reader generalizing buffer with
  | nil =>
    unfold fill
    split_ifs with h
    · simp [Filled, remaining, content]
    · exact ⟨rfl, le_rfl, fun hb => absurd hw (by simpa [hb] using h)⟩
  | cons r rest ih =>
    unfold fill
    split_ifs with h
    · match r with
      | .failed => rfl
      | .data [] => exact ⟨by simp [remaining, content], by simp [bytesLeft], fun _ => rfl⟩
      | .data (b :: bs) =>
        have ih := ih (buffer ++ (b :: bs))
        show Filled buffer _ (fill window (buffer ++ (b :: bs)) rest)
        generalize fill window (buffer ++ (b :: bs)) rest = result at ih
        match result with
        | .error _ => simp only [Filled] at ih ⊢; simp [content, ih]
        | .ok (buffer', reader', exhausted) =>
          obtain ⟨h1, h2, h3⟩ := ih
          refine ⟨?_, ?_, h3⟩
          · rw [← h1, content, Option.map_map]
            congr 1
            funext x
            simp
          · simp only [bytesLeft, List.length_append] at h2 ⊢
            omega
    · exact ⟨rfl, le_rfl, fun hb => absurd hw (by simpa [hb] using h)⟩

/-- The window after a turn's reading. -/
theorem refill_spec (c : Chunker) (buffer : Bytes) (reader : Reader) (exhausted : Bool) :
    match (if exhausted then .ok (buffer, reader, true) else fill c.maxSize buffer reader) with
    | .error _ => remaining reader exhausted = none
    | .ok (buffer', reader', exhausted') =>
      (remaining reader exhausted).map (buffer ++ ·) =
          (remaining reader' exhausted').map (buffer' ++ ·) ∧
        buffer'.length + bytesLeft reader' ≤ buffer.length + bytesLeft reader ∧
        (buffer' = [] → exhausted' = true) := by
  cases exhausted with
  | true => exact ⟨rfl, le_rfl, fun _ => rfl⟩
  | false => exact fill_spec c.maxSize_pos reader buffer

/-! ### The pieces of a stream -/

/-- The chunks the loop would hand over if every one were accepted, and the error
the reader ends it with, if it does. -/
def cutLoop (c : Chunker) : ℕ → Bytes → Reader → Bool → List Bytes × Option StoreError
  | 0, _, _, _ => ([], none)
  | fuel + 1, buffer, reader, exhausted =>
    match (if exhausted then .ok (buffer, reader, true) else fill c.maxSize buffer reader) with
    | .error error => ([], some error)
    | .ok (buffer, reader, exhausted) =>
      if buffer.isEmpty then ([], none)
      else
        let cut := c.cutPoint buffer
        let (rest, error) := cutLoop c fuel (buffer.drop cut) reader exhausted
        (buffer.take cut :: rest, error)

/-- Where a stream is cut. -/
def pieces (c : Chunker) (reader : Reader) : List Bytes × Option StoreError :=
  cutLoop c (bytesLeft reader + 1) [] reader false

/-- The cuts do not depend on what is done with the chunks: splitting is a walk over
the pieces, and then the reader's error if it has one. -/
theorem splitLoop_eq_walk (c : Chunker) (onChunk : σ → Bytes → σ × Option StoreError) :
    ∀ (fuel : ℕ) (s : σ) (buffer : Bytes) (reader : Reader) (exhausted : Bool),
      splitLoop c onChunk fuel s buffer reader exhausted =
        match walk onChunk s (cutLoop c fuel buffer reader exhausted).1 with
        | (s', some error) => (s', some error)
        | (s', none) => (s', (cutLoop c fuel buffer reader exhausted).2)
  | 0, _, _, _, _ => rfl
  | fuel + 1, s, buffer, reader, exhausted => by
    unfold splitLoop cutLoop
    cases (if exhausted = true then .ok (buffer, reader, true) else fill c.maxSize buffer reader) with
    | error error => rfl
    | ok window =>
      obtain ⟨buffer', reader', exhausted'⟩ := window
      dsimp only
      split_ifs with hb
      · rfl
      · rcases hc : onChunk s (buffer'.take (c.cutPoint buffer')) with ⟨s₁, _ | error⟩
        · simp only [walk_cons_ok hc]
          exact splitLoop_eq_walk c onChunk fuel s₁ _ reader' exhausted'
        · simp only [walk_cons_error hc]

/-- **Splitting a stream is a walk over its pieces.** -/
theorem splitStream_eq_walk (c : Chunker) (reader : Reader)
    (onChunk : σ → Bytes → σ × Option StoreError) (s : σ) :
    splitStream c reader onChunk s =
      match walk onChunk s (pieces c reader).1 with
      | (s', some error) => (s', some error)
      | (s', none) => (s', (pieces c reader).2) :=
  splitLoop_eq_walk c onChunk _ s [] reader false

theorem cutLoop_flatten (c : Chunker) : ∀ (fuel : ℕ) (buffer : Bytes) (reader : Reader)
    (exhausted : Bool), buffer.length + bytesLeft reader < fuel →
    (cutLoop c fuel buffer reader exhausted).2 = none →
    (remaining reader exhausted).map (buffer ++ ·) =
      some (cutLoop c fuel buffer reader exhausted).1.flatten
  | 0, _, _, _, hf, _ => by omega
  | fuel + 1, buffer, reader, exhausted, hf, h => by
    have hspec := refill_spec c buffer reader exhausted
    unfold cutLoop at h ⊢
    revert hspec h
    generalize (if exhausted = true then .ok (buffer, reader, true)
      else fill c.maxSize buffer reader) = window
    intro hspec h
    match window with
    | .error error => cases h
    | .ok (buffer', reader', exhausted') =>
      obtain ⟨h1, h2, h3⟩ := hspec
      rw [h1]
      dsimp only at h ⊢
      split_ifs at h ⊢ with hb
      · obtain rfl : buffer' = [] := by simpa using hb
        rw [h3 rfl]
        rfl
      · have hne : buffer' ≠ [] := by simpa using hb
        have hlen : (buffer'.drop (c.cutPoint buffer')).length + bytesLeft reader' < fuel := by
          have := c.cutPoint_pos buffer' hne
          have := List.length_pos_iff.mpr hne
          rw [List.length_drop]
          omega
        have ih := cutLoop_flatten c fuel _ reader' exhausted' hlen h
        obtain ⟨rest, hr, he⟩ := Option.map_eq_some_iff.mp ih
        rw [hr, Option.map_some, List.flatten_cons, ← he, ← List.append_assoc, List.take_append_drop]

/-- **The pieces of a stream that ends well are its content.** -/
theorem pieces_flatten {c : Chunker} {reader : Reader} (h : (pieces c reader).2 = none) :
    content reader = some (pieces c reader).1.flatten := by
  have := cutLoop_flatten c _ [] reader false (by simp) h
  simpa [remaining, pieces] using this

end Itsanas
