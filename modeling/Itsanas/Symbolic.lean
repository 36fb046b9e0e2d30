/-
# Cryptography one can run

A `Crypto` with nothing hidden in it: a sealed chunk is its plaintext, a sealed
body is the owner, the address and the entries it was made from, a signature is
the device and the payload it signs. It satisfies every law `Crypto` asks for, so
those laws are consistent, and concrete stores over it can be evaluated. Its chunk
addresses are the digits of the content in base 257, which is injective on
chunks short enough not to wrap around.
-/
import Itsanas.Engine

namespace Itsanas

/-- The number whose digits in base 257 are the bytes, each one up. -/
def digitsNumber (b : Bytes) : ℕ := b.foldl (fun n x => n * 257 + x.toNat + 1) 0

/-- Content addresses that can be computed by hand. -/
def digitsId (b : Bytes) : Id := Fin.ofNat (2 ^ 256) (digitsNumber b)

/-- Cryptography with nothing hidden. -/
def symbolic : Crypto where
  Sealed := UserId × ObjectId × List LogEntry
  Signature := DeviceId × SigningPayload (UserId × ObjectId × List LogEntry)
  chunkId := digitsId
  sealChunk := id
  openChunk _ sealed := some sealed
  deterministicOverhead := 0
  contentHash := digitsId
  auditTag c := Fin.ofNat (2 ^ 64) c.val
  sealRandom owner id entries := (owner, id, entries)
  openRandom owner id sealed := if sealed.1 = owner ∧ sealed.2.1 = id then some sealed.2.2 else none
  sign device payload := (device, payload)
  verify device payload signature := signature = (device, payload)
  openChunk_sealChunk _ := rfl
  openRandom_sealRandom _ _ _ := by simp
  verify_sign _ _ := by simp

/-- A chunker that cuts every window at its end, up to `maxSize`. -/
def wholeChunker (maxSize : ℕ) (h : 0 < maxSize) : Chunker where
  maxSize := maxSize
  cutPoint b := min b.length maxSize
  maxSize_pos := h
  cutPoint_pos _ hb := lt_min (List.length_pos_iff.mpr hb) h
  cutPoint_le _ := min_le_left _ _

/-- Chunks of up to four bytes. -/
def fourBytes : Chunker := wholeChunker 4 (by decide)

/-- Chunks of up to two bytes. -/
def twoBytes : Chunker := wholeChunker 2 Nat.two_pos

/-- A source that has every chunk of one byte. -/
def oneByteSource : ChunkSource where
  fetch _ _ c := .ok (some [UInt8.ofNat (c.val - 1)])

end Itsanas
