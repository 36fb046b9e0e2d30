/-
# Where files are cut

`chunker.rs` and `chunker/keyed.rs`: the public cut by a gear hash, and the keyed cut by a
polynomial over the last bytes and a pseudo-random function of its value. Both look for the first
hit of a rolling hash between the smallest chunk and the largest, under a strict mask before the
average and a loose one after it. So a cut depends only on the bytes up to the largest chunk
(`ChunkerConfig.local_chunker`), and splitting a stream cuts where splitting the whole slice does,
however the reads come (`split_stream_as_split`).

The hash that the keyed cut tests is the polynomial of the last bytes at the secret point, modulo
2^61 - 1 (`KeyedCut.tested_eq`), so whether a position is a boundary depends on those bytes only
(`keyed_cut_polynomial`).

The gear table, derived from BLAKE3 in the source, and the masks, which `new` takes from a table by
the average size, may be any.
-/
import Itsanas.Chunker
import Itsanas.Field
import Itsanas.Lib.FirstHit
import Itsanas.Lib.Horner

namespace Itsanas

open Walk

/-! ### SipHash-2-4 of one word -/

namespace Siphash

/-- The four state words. -/
structure State where
  v0 : UInt64
  v1 : UInt64
  v2 : UInt64
  v3 : UInt64

def rotateLeft (x n : UInt64) : UInt64 := x <<< n ||| x >>> (64 - n)

def State.new (k0 k1 : UInt64) : State :=
  ⟨k0 ^^^ 0x736f6d6570736575, k1 ^^^ 0x646f72616e646f6d, k0 ^^^ 0x6c7967656e657261,
    k1 ^^^ 0x7465646279746573⟩

def State.round (s : State) : State :=
  let v0 := s.v0 + s.v1
  let v1 := rotateLeft s.v1 13 ^^^ v0
  let v0 := rotateLeft v0 32
  let v2 := s.v2 + s.v3
  let v3 := rotateLeft s.v3 16 ^^^ v2
  let v0 := v0 + v3
  let v3 := rotateLeft v3 21 ^^^ v0
  let v2 := v2 + v1
  let v1 := rotateLeft v1 17 ^^^ v2
  let v2 := rotateLeft v2 32
  ⟨v0, v1, v2, v3⟩

def State.absorb (s : State) (word : UInt64) : State :=
  let s := { s with v3 := s.v3 ^^^ word }.round.round
  { s with v0 := s.v0 ^^^ word }

/-- SipHash-2-4 under `(k0, k1)` of the eight little-endian bytes of `word`. -/
def hashWord (k0 k1 word : UInt64) : UInt64 :=
  let s := ((State.new k0 k1).absorb word).absorb ((8 : UInt64) <<< (56 : UInt64))
  let s := { s with v2 := s.v2 ^^^ 0xff }.round.round.round.round
  s.v0 ^^^ s.v1 ^^^ s.v2 ^^^ s.v3

-- the reference vector for the eight bytes 0 to 7 under the key 0 to 15
example : hashWord 0x0706050403020100 0x0f0e0d0c0b0a0908 0x0706050403020100 = 0x93f5f5799a932462 := by
  decide +kernel

end Siphash

/-! ### The keyed cut -/

/-- Bytes the cut decision looks at. -/
def WINDOW : ℕ := 64

/-- The account's keyed cut: its polynomial point, the terms of the bytes that leave the window,
and its PRF key. -/
structure KeyedCut where
  point : ℕ
  leaving : UInt8 → ℕ
  prf : UInt64 × UInt64

/-- The bounds a cut obeys. -/
structure Bounds where
  min : ℕ
  avg : ℕ
  max : ℕ
  strict : UInt64
  loose : UInt64

/-- The number that bytes are, the least significant first. -/
def word (bytes : Bytes) : ℕ := bytes.foldr (fun b n => b.toNat + 256 * n) 0

/-- A point of the field from a word: reduced into it, and moved off 0 and 1. -/
def pointFrom (raw : ℕ) : ℕ :=
  let point := Field.reduce (raw &&& Field.P)
  if point < 2 then point + 2 else point

namespace KeyedCut

/-- The cut for the account whose chunking key is `key`. -/
def new (key : Bytes) : KeyedCut :=
  let point := pointFrom (word (key.take 8))
  let top := Field.pow point (WINDOW - 1)
  { point := point
    leaving := fun byte => Field.reduce (Field.P - Field.mul byte.toNat top)
    prf := (UInt64.ofNat (word ((key.drop 16).take 8)), UInt64.ofNat (word ((key.drop 24).take 8))) }

/-- The polynomial over the window ending just before `stop`. -/
def primed (cut : KeyedCut) (data : Bytes) (stop : ℕ) : ℕ :=
  ((data.take stop).drop (stop - WINDOW)).foldl
    (fun hash byte => Field.add (Field.mul hash cut.point) byte.toNat) 0

/-- The hash rolled on over one position. -/
def roll (cut : KeyedCut) (data : Bytes) (pos : ℕ) (hash : ℕ) : ℕ :=
  -- before the window has filled nothing leaves: byte 0's term is zero
  let old := if WINDOW ≤ pos then data.getD (pos - WINDOW) 0 else 0
  let hash := Field.add hash (cut.leaving old)
  Field.add (Field.mul hash cut.point) (data.getD pos 0).toNat

/-- Whether there is a boundary after a position with this hash. -/
def isBoundary (cut : KeyedCut) (bounds : Bounds) (pos : ℕ) (hash : ℕ) : Bool :=
  let mask := if pos < bounds.avg then bounds.strict else bounds.loose
  Siphash.hashWord cut.prf.1 cut.prf.2 (UInt64.ofNat hash) &&& mask = 0

/-- Offset of the first cut in `data`, or its length when the buffer ends first. -/
def cutPoint (cut : KeyedCut) (data : Bytes) (bounds : Bounds) : ℕ :=
  if data.length ≤ bounds.min then data.length
  else
    let stop := min data.length bounds.max
    match FirstHit.scan (cut.roll data) (cut.isBoundary bounds) (stop - bounds.min) bounds.min
      (cut.primed data bounds.min) with
    | .inl at' => at'
    | .inr _ => stop

end KeyedCut

/-! ### The public cut and the configuration -/

/-- Chunk size bounds. -/
structure ChunkerConfig where
  minSize : ℕ
  avgSize : ℕ
  maxSize : ℕ
  maskStrict : UInt64
  maskLoose : UInt64
  /-- The account's keyed cut; `none` is the public gear cut. -/
  keyed : Option KeyedCut
  min_pos : 0 < minSize
  min_le_avg : minSize ≤ avgSize
  avg_le_max : avgSize ≤ maxSize

namespace ChunkerConfig

/-- The gear hash rolled on over one position. -/
def roll (gear : UInt8 → UInt64) (data : Bytes) (pos : ℕ) (hash : UInt64) : UInt64 :=
  hash <<< 1 + gear (data.getD pos 0)

/-- Whether a gear hash is a boundary under a mask. -/
def isBoundary (mask : UInt64) (_pos : ℕ) (hash : UInt64) : Bool := hash &&& mask = 0

/-- Offset of the first cut point in `data`, or its length if there is none. -/
def cutPoint (gear : UInt8 → UInt64) (config : ChunkerConfig) (data : Bytes) : ℕ :=
  match config.keyed with
  | some keyed =>
    keyed.cutPoint data ⟨config.minSize, config.avgSize, config.maxSize, config.maskStrict,
      config.maskLoose⟩
  | none =>
    if data.length ≤ config.minSize then data.length
    else
      let stop := min data.length config.maxSize
      let center := min config.avgSize stop
      match FirstHit.scan (roll gear data) (isBoundary config.maskStrict) (center - config.minSize)
        config.minSize 0 with
      | .inl at' => at'
      | .inr hash =>
        match FirstHit.scan (roll gear data) (isBoundary config.maskLoose) (stop - center) center
            hash with
        | .inl at' => at'
        | .inr _ => stop

end ChunkerConfig

/-- One chunk of a slice. -/
structure Chunk where
  offset : ℕ
  data : Bytes

/-- The iterator over the chunks of a slice. -/
structure Chunks where
  data : Bytes
  offset : ℕ

/-- The next chunk of a slice. -/
def Chunks.next (c : Chunker) (chunks : Chunks) : Option (Chunk × Chunks) :=
  if chunks.data.length < chunks.offset then none
  else
    let remaining := chunks.data.drop chunks.offset
    if remaining.isEmpty then none
    else
      let cut := c.cutPoint remaining
      some (⟨chunks.offset, remaining.take cut⟩, { chunks with offset := chunks.offset + cut })

/-- The next `n` chunks, or all there are. -/
def Chunks.collect (c : Chunker) : ℕ → Chunks → List Chunk
  | 0, _ => []
  | n + 1, chunks =>
    match chunks.next c with
    | none => []
    | some (chunk, chunks) => chunk :: Chunks.collect c n chunks

/-- The chunks of a slice: no more than it has bytes. -/
def split (c : Chunker) (data : Bytes) : List Chunk := Chunks.collect c data.length ⟨data, 0⟩

/-! ### Cuts look no further than the largest chunk -/

variable {data : Bytes} {n pos : ℕ}

theorem getD_take (h : pos < n) : (data.take n).getD pos 0 = data.getD pos 0 := by
  rw [List.getD_eq_getElem?_getD, List.getD_eq_getElem?_getD, List.getElem?_take_of_lt h]

/-- Where a cut may fall: within the data and the largest chunk, and not before the smallest chunk
unless the data ends there. -/
structure Within (minSize maxSize length cut : ℕ) : Prop where
  le_length : cut ≤ length
  le_max : cut ≤ maxSize
  min_le : cut = length ∨ minSize ≤ cut

namespace KeyedCut

variable (cut : KeyedCut) {bounds : Bounds}

theorem cutPoint_within (data : Bytes) (h : bounds.min ≤ bounds.max) :
    Within bounds.min bounds.max data.length (cut.cutPoint data bounds) := by
  unfold cutPoint
  split_ifs with hshort
  · exact ⟨le_refl _, by omega, .inl rfl⟩
  · dsimp only
    cases hscan : FirstHit.scan (cut.roll data) (cut.isBoundary bounds)
      (min data.length bounds.max - bounds.min)
      bounds.min (cut.primed data bounds.min) with
    | inl at' =>
      have hrange := FirstHit.scan_bounds hscan
      exact ⟨by dsimp only; omega, by dsimp only; omega, .inr (by dsimp only; omega)⟩
    | inr hash => exact ⟨by dsimp only; omega, by dsimp only; omega, .inr (by dsimp only; omega)⟩

theorem roll_take (h : pos < n) : cut.roll (data.take n) pos = cut.roll data pos := by
  funext hash
  unfold roll
  rw [getD_take h, getD_take (show pos - WINDOW < n by omega)]

theorem primed_take {n stop : ℕ} (h : stop ≤ n) :
    cut.primed (data.take n) stop = cut.primed data stop := by
  unfold primed
  rw [List.take_take, Nat.min_eq_left h]

theorem cutPoint_take (data : Bytes) (h : bounds.min ≤ bounds.max) :
    cut.cutPoint data bounds = cut.cutPoint (data.take bounds.max) bounds := by
  rcases Nat.lt_or_ge bounds.max data.length with hlong | hshort
  · have hlength : (data.take bounds.max).length = bounds.max := List.length_take_of_le (by omega)
    unfold cutPoint
    rw [hlength, if_neg (by omega), primed_take cut h]
    dsimp only
    rw [Nat.min_eq_right (Nat.le_of_lt hlong), Nat.min_self]
    split_ifs with hequal
    · -- the smallest chunk is the largest: nothing is scanned
      rw [show bounds.max - bounds.min = 0 by omega]
      rfl
    · have hscan : FirstHit.scan (cut.roll (data.take bounds.max)) (cut.isBoundary bounds)
        (bounds.max - bounds.min)
          bounds.min (cut.primed data bounds.min) =
            FirstHit.scan (cut.roll data) (cut.isBoundary bounds) (bounds.max - bounds.min) bounds.min
              (cut.primed data bounds.min) :=
        FirstHit.scan_congr fun pos _ hhigh => ⟨cut.roll_take (by omega), rfl⟩
      rw [hscan]
  · rw [List.take_of_length_le hshort]

end KeyedCut

namespace ChunkerConfig

variable (gear : UInt8 → UInt64) (config : ChunkerConfig)

theorem min_le_max :
    config.minSize ≤ config.maxSize := Nat.le_trans config.min_le_avg config.avg_le_max

theorem cutPoint_within (data : Bytes) :
    Within config.minSize config.maxSize data.length (config.cutPoint gear data) := by
  have hsizes := config.min_le_max
  have haverage := config.min_le_avg
  unfold cutPoint
  cases config.keyed with
  | some keyed => exact @KeyedCut.cutPoint_within keyed ⟨_, _, _, _, _⟩ data hsizes
  | none =>
    dsimp only
    split_ifs with hshort
    · exact ⟨le_refl _, by omega, .inl rfl⟩
    · split
      · rename_i hscan
        have hrange := FirstHit.scan_bounds hscan
        exact ⟨by omega, by omega, .inr (by omega)⟩
      · split
        · rename_i hscan
          have hrange := FirstHit.scan_bounds hscan
          exact ⟨by omega, by omega, .inr (by omega)⟩
        · exact ⟨by omega, by omega, .inr (by omega)⟩

theorem roll_take (h : pos < n) : roll gear (data.take n) pos = roll gear data pos := by
  funext hash
  unfold roll
  rw [getD_take h]

/-- The bytes past the largest chunk do not move a cut. -/
theorem cutPoint_take (data : Bytes) :
    config.cutPoint gear data = config.cutPoint gear (data.take config.maxSize) := by
  have hsizes := config.min_le_max
  unfold cutPoint
  cases config.keyed with
  | some keyed => exact keyed.cutPoint_take data hsizes
  | none =>
    dsimp only
    rcases Nat.lt_or_ge config.maxSize data.length with hlong | hshort
    · have hlength : (data.take config.maxSize).length = config.maxSize :=
        List.length_take_of_le (by omega)
      have haverage := config.avg_le_max
      rw [hlength, if_neg (show ¬ data.length ≤ config.minSize by omega),
        Nat.min_eq_right (Nat.le_of_lt hlong),
        Nat.min_self, Nat.min_eq_left haverage]
      have hscan : ∀ (mask : UInt64) (n start : ℕ) (hash : UInt64), start + n ≤ config.maxSize →
          FirstHit.scan (roll gear (data.take config.maxSize)) (isBoundary mask) n start hash =
            FirstHit.scan (roll gear data) (isBoundary mask) n start hash := fun mask n start hash h =>
        FirstHit.scan_congr fun pos _ hhigh => ⟨roll_take gear (by omega), rfl⟩
      split_ifs with hequal
      · -- the smallest chunk is the largest: nothing is scanned
        have hlow := config.min_le_avg
        rw [show config.avgSize - config.minSize =
          0 by omega, show config.maxSize - config.avgSize = 0 by omega]
        rfl
      · have hlow := config.min_le_avg
        rw [hscan _ _ _ _ (by omega)]
        split
        · rfl
        · rw [hscan _ _ _ _ (by omega)]
    · rw [List.take_of_length_le hshort]

theorem maxSize_pos : 0 < config.maxSize := Nat.lt_of_lt_of_le config.min_pos config.min_le_max

theorem cutPoint_pos (data : Bytes) (h : data ≠ []) : 0 < config.cutPoint gear data := by
  have hlength := List.length_pos_of_ne_nil h
  have hmin := config.min_pos
  rcases (config.cutPoint_within gear data).min_le with hall | hlow
  · rw [hall]
    exact hlength
  · exact Nat.lt_of_lt_of_le hmin hlow

theorem cutPoint_le (data : Bytes) : config.cutPoint gear data ≤ data.length :=
  (config.cutPoint_within gear data).le_length

/-- The chunker of a configuration. -/
def chunker : Chunker where
  maxSize := config.maxSize
  cutPoint := config.cutPoint gear
  maxSize_pos := config.maxSize_pos
  cutPoint_pos := config.cutPoint_pos gear
  cutPoint_le := config.cutPoint_le gear

end ChunkerConfig

/-! ### Streaming cuts as slicing does -/

section Stream

variable {c : Chunker}

/-- A chunker whose cuts look no further than its largest chunk. -/
def Chunker.Local (c : Chunker) : Prop := ∀ data, c.cutPoint data = c.cutPoint (data.take c.maxSize)

theorem ChunkerConfig.local_chunker (gear : UInt8 → UInt64) (config : ChunkerConfig) :
    (config.chunker gear).Local :=
  config.cutPoint_take gear

/-- At most `n` chunks of a slice. -/
def slices (c : Chunker) : ℕ → Bytes → List Bytes
  | 0, _ => []
  | n + 1, data =>
    if data.isEmpty then [] else data.take (c.cutPoint data) :: slices c n
      (data.drop (c.cutPoint data))

theorem slices_nil : ∀ n, slices c n [] = []
  | 0 => rfl
  | _ + 1 => rfl

theorem slices_succ {n : ℕ} (h : data ≠ []) :
    slices c (n + 1) data =
      data.take (c.cutPoint data) :: slices c n (data.drop (c.cutPoint data)) := by
  rw [slices, if_neg (by simpa using h)]

theorem length_drop_cutPoint {n : ℕ} (h : data ≠ []) (hlength : data.length ≤ n + 1) :
    (data.drop (c.cutPoint data)).length ≤ n := by
  have hcut := c.cutPoint_pos data h
  rw [List.length_drop]
  omega

theorem slices_flatten : ∀ {n : ℕ} {data : Bytes}, data.length ≤ n → (slices c n data).flatten = data
  | 0, data, h => by
    obtain rfl : data = [] := List.length_eq_zero_iff.mp (by omega)
    rfl
  | n + 1, data, h => by
    by_cases hne : data = []
    · subst hne
      rfl
    · rw [slices_succ hne, List.flatten_cons, slices_flatten (length_drop_cutPoint hne h),
        List.take_append_drop]

/-- The window is full after a turn's reading, unless the reader has ended. -/
theorem fill_full {window : ℕ} :
    ∀ {reader reader' : Reader} {buffer buffer' : Bytes} {exhausted : Bool},
    fill window buffer reader = .ok (buffer', reader', exhausted) → exhausted = true ∨
      window ≤ buffer'.length := by
  intro reader
  induction reader with
  | nil =>
    intro reader' buffer buffer' exhausted h
    unfold fill at h
    split_ifs at h with hroom
    · cases h
      exact .inl rfl
    · cases h
      exact .inr (by omega)
  | cons read rest ih =>
    intro reader' buffer buffer' exhausted h
    unfold fill at h
    split_ifs at h with hroom
    · rcases read with (_ | ⟨byte, bytes⟩) | _
      · cases h
        exact .inl rfl
      · exact ih h
      · cases h
    · cases h
      exact .inr (by omega)

theorem refill_full {buffer buffer' : Bytes} {reader reader' : Reader} {exhausted exhausted' : Bool}
    (h : (if exhausted then .ok (buffer, reader, true) else fill c.maxSize buffer reader) =
      Except.ok (buffer', reader', exhausted')) : exhausted' = true ∨ c.maxSize ≤ buffer'.length := by
  split_ifs at h
  · cases h
    exact .inl rfl
  · exact fill_full h

/-- The cut of a window that is full, or that the data ends in, is the cut of the data. -/
theorem cutPoint_window (hlocal : c.Local) {buffer rest : Bytes}
    (h : rest = [] ∨ c.maxSize ≤ buffer.length) :
    c.cutPoint (buffer ++ rest) = c.cutPoint buffer := by
  rcases h with rfl | hfull
  · rw [List.append_nil]
  · rw [hlocal (buffer ++ rest), hlocal buffer, List.take_append_of_le_length hfull]

/-- The loop cuts what it has and what is still to come as one slice. -/
theorem cutLoop_eq_slices (hlocal : c.Local) :
    ∀ (fuel n : ℕ) (buffer : Bytes) (reader : Reader) (exhausted : Bool)
    {data : Bytes}, (remaining reader exhausted).map (buffer ++ ·) = some data →
      buffer.length + bytesLeft reader < fuel → data.length ≤ n →
      cutLoop c fuel buffer reader exhausted = (slices c n data, none)
  | 0, _, _, _, _, _, _, hfuel, _ => absurd hfuel (Nat.not_lt_zero _)
  | fuel + 1, n, buffer, reader, exhausted, data, hdata, hfuel, hn => by
    have hspec := refill_spec c buffer reader exhausted
    unfold cutLoop
    cases hfill :
        (if exhausted = true then .ok (buffer, reader, true) else fill c.maxSize buffer reader) with
    | error error =>
      rw [hfill] at hspec
      rw [show remaining reader exhausted = none from hspec] at hdata
      cases hdata
    | ok window =>
      obtain ⟨buffer', reader', exhausted'⟩ := window
      rw [hfill] at hspec
      obtain ⟨hsame, hless, hended⟩ := hspec
      rw [hsame] at hdata
      obtain ⟨rest, hrest, rfl⟩ := Option.map_eq_some_iff.mp hdata
      have hwindow : rest = [] ∨ c.maxSize ≤ buffer'.length := by
        refine (refill_full hfill).imp_left fun hover => ?_
        rw [hover] at hrest
        cases hrest
        rfl
      dsimp only at hn ⊢
      by_cases hempty : buffer' = []
      · subst hempty
        have hover := hended rfl
        subst hover
        cases hrest
        exact Prod.ext (slices_nil n).symm rfl
      · have hne : buffer' ++ rest ≠ [] := List.append_ne_nil_of_left_ne_nil hempty rest
        have hcut := c.cutPoint_le buffer'
        have hpos := c.cutPoint_pos buffer' hempty
        have hlength := List.length_pos_of_ne_nil hne
        obtain ⟨n, rfl⟩ : ∃ k, n = k + 1 := ⟨n - 1, by omega⟩
        have hsplit := cutPoint_window hlocal hwindow
        have hshorter : (buffer'.drop (c.cutPoint buffer')).length + bytesLeft reader' < fuel := by
          rw [List.length_drop]
          omega
        have hleft : (buffer'.drop (c.cutPoint buffer') ++ rest).length ≤ n := by
          rw [← List.drop_append_of_le_length hcut, ← hsplit]
          exact length_drop_cutPoint hne hn
        have ih :=
          cutLoop_eq_slices hlocal fuel n (buffer'.drop (c.cutPoint buffer')) reader' exhausted'
          (by rw [hrest, Option.map_some]) hshorter hleft
        rw [if_neg (by simpa using hempty), slices_succ hne, hsplit,
          List.take_append_of_le_length hcut, List.drop_append_of_le_length hcut, ih]

/-- **A stream is cut as its content is.** -/
theorem pieces_eq_slices (hlocal : c.Local) {reader : Reader} (h : content reader = some data) :
    pieces c reader = (slices c data.length data, none) :=
  cutLoop_eq_slices hlocal _ _ _ _ _ (by rw [remaining, if_neg Bool.false_ne_true, h]; rfl)
    (by rw [List.length_nil]; omega) (Nat.le_refl _)

theorem map_collect : ∀ (n : ℕ) (data : Bytes) {offset : ℕ}, offset ≤ data.length →
    (Chunks.collect c n ⟨data, offset⟩).map Chunk.data = slices c n (data.drop offset)
  | 0, _, _, _ => rfl
  | n + 1, data, offset, h => by
    unfold Chunks.collect Chunks.next slices
    dsimp only
    rw [if_neg (by omega)]
    split_ifs with hempty
    · rfl
    · have hcut := c.cutPoint_le (data.drop offset)
      rw [List.length_drop] at hcut
      dsimp only
      rw [List.map_cons, map_collect n data (by omega), List.drop_drop]

theorem map_split (data : Bytes) : (split c data).map Chunk.data = slices c data.length data := by
  rw [split, map_collect data.length data (Nat.zero_le _), List.drop_zero]

/-- A callback that keeps every chunk. -/
def keep (out : List Bytes) (chunk : Bytes) : List Bytes × Option StoreError := (out ++ [chunk], none)

theorem walk_keep : ∀ (xs out : List Bytes), walk keep out xs = (out ++ xs, none)
  | [], out => by
    rw [List.append_nil]
    rfl
  | x :: xs, out => by
    have hstep : keep out x = (out ++ [x], none) := rfl
    rw [walk_cons_ok hstep, walk_keep xs, List.append_assoc]
    rfl

end Stream

/-! ### How long chunks are -/

section Lengths

variable (gear : UInt8 → UInt64) (config : ChunkerConfig)

theorem length_slice (h : data ≠ []) :
    0 < (data.take (config.cutPoint gear data)).length ∧
      (data.take (config.cutPoint gear data)).length ≤ config.maxSize := by
  have hwithin := config.cutPoint_within gear data
  rw [List.length_take_of_le hwithin.le_length]
  exact ⟨config.cutPoint_pos gear data h, hwithin.le_max⟩

theorem length_slices : ∀ (n : ℕ) {data chunk : Bytes}, chunk ∈ slices (config.chunker gear) n data →
    0 < chunk.length ∧ chunk.length ≤ config.maxSize
  | 0, _, _, h => nomatch h
  | n + 1, data, chunk, h => by
    by_cases hne : data = []
    · subst hne
      cases h
    · rw [slices_succ hne] at h
      rcases List.mem_cons.mp h with rfl | h
      · exact length_slice gear config hne
      · exact length_slices n h

/-- Only the last chunk of a slice may be short. -/
theorem min_length_slices : ∀ (n : ℕ) {data chunk : Bytes}, data.length ≤ n →
    chunk ∈ (slices (config.chunker gear) n data).dropLast → config.minSize ≤ chunk.length
  | 0, _, _, _, h => nomatch h
  | n + 1, data, chunk, hn, h => by
    by_cases hne : data = []
    · subst hne
      cases h
    · rw [slices_succ hne] at h
      have hwithin := config.cutPoint_within gear data
      by_cases hlast : slices (config.chunker gear) n
        (data.drop ((config.chunker gear).cutPoint data)) = []
      · rw [hlast] at h
        cases h
      · rw [List.dropLast_cons_of_ne_nil hlast] at h
        rcases List.mem_cons.mp h with rfl | h
        · -- a cut at the end of the data would leave nothing for the chunks that follow
          rcases hwithin.min_le with hall | hlow
          · refine absurd ?_ hlast
            have hnothing : data.drop ((config.chunker gear).cutPoint data) = [] :=
              List.drop_of_length_le (Nat.le_of_eq hall.symm)
            rw [hnothing, slices_nil]
          · exact (List.length_take_of_le hwithin.le_length).symm ▸ hlow
        · exact min_length_slices n (length_drop_cutPoint hne hn) h

/-- **Splitting a stream hands over the chunks of the whole slice**, whichever cut, bounds and
reads: they are the content, and between the smallest chunk and the largest, the last one aside. -/
theorem split_stream_as_split {reader : Reader} {data : Bytes} (h : content reader = some data) :
    let chunks := (split (config.chunker gear) data).map Chunk.data
    splitStream (config.chunker gear) reader keep [] = (chunks, none) ∧
      chunks.flatten = data ∧
      (∀ chunk ∈ chunks.dropLast, config.minSize ≤ chunk.length ∧ chunk.length ≤ config.maxSize) ∧
      ∀ chunk ∈ chunks.getLast?, 1 ≤ chunk.length ∧ chunk.length ≤ config.maxSize := by
  intro chunks
  have hchunks : chunks = slices (config.chunker gear) data.length data := map_split data
  have hpieces := pieces_eq_slices (config.local_chunker gear) h
  refine ⟨?_, ?_, fun chunk hchunk => ⟨?_, ?_⟩, fun chunk hchunk => ?_⟩
  · rw [splitStream_eq_walk, hpieces, walk_keep, hchunks, List.nil_append]
  · rw [hchunks]
    exact slices_flatten (Nat.le_refl _)
  · rw [hchunks] at hchunk
    exact min_length_slices gear config _ (Nat.le_refl _) hchunk
  · rw [hchunks] at hchunk
    exact (length_slices gear config _ (List.mem_of_mem_dropLast hchunk)).2
  · rw [hchunks] at hchunk
    exact length_slices gear config _ (List.mem_of_getLast? hchunk)

/-- A configuration with a key, for short chunks. -/
def shortKeyed : ChunkerConfig :=
  ⟨2, 3, 5, 0x3, 0x1,
    some (KeyedCut.new ((List.range 32).map UInt8.ofNat)), by decide, by decide, by decide⟩

/-- Ten bytes that come in reads of one, six and three bytes are cut as they are at once. -/
theorem split_stream_as_split_reads :
    let reads := [.data [1], .data [2, 3, 4, 5, 6, 7], .data [8, 9, 10], .data []]
    content reads = some [1, 2, 3, 4, 5, 6, 7, 8, 9, 10] ∧
      splitStream (shortKeyed.chunker fun byte => byte.toUInt64) reads keep [] =
        ((split (shortKeyed.chunker fun byte => byte.toUInt64) [1, 2, 3, 4, 5, 6, 7, 8, 9, 10]).map
            Chunk.data, none) := by
  intro reads
  have hcontent : content reads = some [1, 2, 3, 4, 5, 6, 7, 8, 9, 10] := by decide
  exact ⟨hcontent, (split_stream_as_split _ shortKeyed hcontent).1⟩

end Lengths

/-! ### The polynomial of the last bytes -/

namespace KeyedCut

open Itsanas.Field

/-- The last bytes of the chunk so far, up to and including a position. -/
def lastBytes (data : Bytes) (pos : ℕ) : Bytes := (data.take (pos + 1)).rtake WINDOW

/-- The polynomial with these bytes as coefficients, the last one the constant term. -/
def polynomial (point : ℕ) (bytes : Bytes) : ZMod P :=
  ∑ i ∈ Finset.range bytes.length, ((bytes.reverse.getD i 0).toNat : ZMod P) * (point : ZMod P) ^ i

/-- The value tested at a position, rolled on from the smallest chunk. -/
def tested (cut : KeyedCut) (data : Bytes) (bounds : Bounds) (pos : ℕ) : ℕ :=
  FirstHit.stateAt (cut.roll data) bounds.min (cut.primed data bounds.min) (pos - bounds.min + 1)

/-- Bytes as coefficients. -/
def coefficients (bytes : Bytes) : List (ZMod P) := bytes.map fun byte => (byte.toNat : ZMod P)

theorem getD_coefficients (bytes : Bytes) (i : ℕ) :
    (coefficients bytes).getD i 0 = ((bytes.getD i 0).toNat : ZMod P) := by
  rw [List.getD_eq_getElem?_getD, List.getD_eq_getElem?_getD, coefficients, List.getElem?_map]
  cases bytes[i]? with
  | none => exact Nat.cast_zero.symm
  | some byte => rfl

theorem eval_coefficients (point : ℕ) (bytes : Bytes) :
    Horner.eval (point : ZMod P) (coefficients bytes) = polynomial point bytes := by
  have hreverse : (coefficients bytes).reverse = coefficients bytes.reverse := List.map_reverse.symm
  have hlength : (coefficients bytes).length = bytes.length := List.length_map _
  rw [Horner.eval_eq_sum, hreverse, hlength]
  exact Finset.sum_congr rfl fun i _ => by rw [getD_coefficients]

theorem coefficients_rtake (bytes : Bytes) (n : ℕ) :
    coefficients (bytes.rtake n) = (coefficients bytes).rtake n := by
  rw [coefficients, coefficients, List.rtake, List.rtake, List.map_drop, List.length_map]

theorem byte_lt (byte : UInt8) : byte.toNat < P := Nat.lt_trans byte.toNat_lt (by decide)

theorem pointFrom_lt (raw : ℕ) : pointFrom raw < P := by
  have hraw : raw &&& P ≤ P := Nat.and_le_right
  have hpos := P_pos
  have hreduced : reduce (raw &&& P) < P := reduce_lt (by omega)
  unfold pointFrom
  dsimp only
  split_ifs with hsmall
  · have htwo : 4 ≤ P := by decide
    omega
  · exact hreduced

section Rolling

variable (key : Bytes)

theorem point_lt : (new key).point < P := pointFrom_lt _

theorem top_lt : Field.pow (new key).point (WINDOW - 1) < P := by
  rw [pow_eq (point_lt key) (by decide)]
  exact Nat.mod_lt _ P_pos

theorem leaving_lt (byte : UInt8) : (new key).leaving byte < P := by
  have hpos := P_pos
  exact reduce_lt (by omega)

/-- The term of the byte that leaves the window, taken out. -/
theorem cast_leaving (byte : UInt8) :
    ((new key).leaving byte : ZMod P) = -(byte.toNat * ((new key).point : ZMod P) ^ (WINDOW - 1)) := by
  have hterm : Field.mul byte.toNat (Field.pow (new key).point (WINDOW - 1)) < P :=
    mul_lt (byte_lt byte) (top_lt key)
  refine (cast_reduce_sub hterm).trans ?_
  rw [cast_mul (byte_lt byte) (top_lt key), pow_eq (point_lt key) (by decide), ZMod.natCast_mod,
    Nat.cast_pow]

/-- A canonical value that is the polynomial of the last bytes before a position. -/
structure Holds (data : Bytes) (stop hash : ℕ) : Prop where
  lt : hash < P
  value : (hash : ZMod P) =
    Horner.eval ((new key).point : ZMod P) ((coefficients (data.take stop)).rtake WINDOW)

theorem fold_holds : ∀ (bytes : Bytes) {hash : ℕ}, hash < P →
    let out := bytes.foldl (fun hash byte => Field.add (Field.mul hash (new key).point) byte.toNat)
      hash
    out < P ∧ (out : ZMod P) =
      (coefficients bytes).foldl (fun value c => value * ((new key).point : ZMod P) + c)
        (hash : ZMod P)
  | [], _, h => ⟨h, rfl⟩
  | byte :: bytes, hash, h => by
    have hmul := mul_lt h (point_lt key)
    have hnext := fold_holds bytes (add_lt hmul (byte_lt byte))
    rw [cast_add hmul (byte_lt byte), cast_mul h (point_lt key)] at hnext
    exact hnext

theorem primed_holds {stop : ℕ} (h : stop ≤ data.length) :
    Holds key data stop ((new key).primed data stop) := by
  obtain ⟨hlt, hvalue⟩ := fold_holds key ((data.take stop).drop (stop - WINDOW)) P_pos
  refine ⟨hlt, hvalue.trans ?_⟩
  have hwindow : (data.take stop).drop (stop - WINDOW) = (data.take stop).rtake WINDOW := by
    rw [List.rtake, List.length_take_of_le h]
  rw [hwindow, coefficients_rtake, Nat.cast_zero]
  rfl

theorem roll_holds {pos hash : ℕ} (hpos : pos < data.length) (h : Holds key data pos hash) :
    Holds key data (pos + 1) ((new key).roll data pos hash) := by
  have htake : data.take (pos + 1) = data.take pos ++ [data.getD pos 0] := by
    rw [List.take_succ_eq_append_getElem hpos, List.getD_eq_getElem _ _ hpos]
  have hlength : (coefficients (data.take pos)).length = pos := by
    rw [coefficients, List.length_map, List.length_take_of_le (Nat.le_of_lt hpos)]
  set old : UInt8 := if WINDOW ≤ pos then data.getD (pos - WINDOW) 0 else 0 with hold
  have hleaves : Horner.leaves WINDOW (coefficients (data.take pos)) = (old.toNat : ZMod P) := by
    unfold Horner.leaves
    rw [hlength, hold]
    split_ifs with hfull
    · have hin : pos - WINDOW < pos := Nat.sub_lt_of_pos_le (by decide) hfull
      rw [← getD_take hin, getD_coefficients]
    · exact Nat.cast_zero.symm
  have hsum := add_lt h.lt (leaving_lt key old)
  have hmul := mul_lt hsum (point_lt key)
  refine ⟨add_lt hmul (byte_lt _), ?_⟩
  have hslide := Horner.eval_slide ((new key).point : ZMod P) (by decide : 0 < WINDOW)
    (coefficients (data.take pos))
    ((data.getD pos 0).toNat : ZMod P)
  have happend : coefficients (data.take (pos + 1)) =
      coefficients (data.take pos) ++ [((data.getD pos 0).toNat : ZMod P)] := by
    rw [htake, coefficients, List.map_append]
    rfl
  rw [happend, hslide, hleaves, ← h.value]
  refine (cast_add hmul (byte_lt _)).trans ?_
  rw [cast_mul hsum (point_lt key), cast_add h.lt (leaving_lt key old), cast_leaving, sub_eq_add_neg]

theorem stateAt_holds {start : ℕ} : ∀ {k : ℕ}, start + k ≤ data.length →
    Holds key data (start + k)
      (FirstHit.stateAt ((new key).roll data) start ((new key).primed data start) k)
  | 0, h => primed_holds key h
  | _ + 1, h => roll_holds key h (stateAt_holds (Nat.le_of_succ_le h))

/-- The value tested is canonical, and the polynomial of the last bytes. -/
theorem tested_eq {bounds : Bounds} {pos : ℕ} (hmin : bounds.min ≤ pos) (hpos : pos < data.length) :
    (new key).tested data bounds pos < P ∧
      ((new key).tested data bounds pos : ZMod P) =
        polynomial (new key).point (lastBytes data pos) := by
  have hsteps : bounds.min + (pos - bounds.min + 1) = pos + 1 := by omega
  have hlast : bounds.min + (pos - bounds.min + 1) ≤ data.length := by omega
  obtain ⟨hlt, hvalue⟩ := stateAt_holds key hlast
  refine ⟨hlt, hvalue.trans ?_⟩
  rw [hsteps, ← coefficients_rtake, eval_coefficients]
  rfl

end Rolling

/-- A cut is at the first boundary past the smallest chunk, or at the end. -/
theorem cutPoint_first (cut : KeyedCut) {bounds : Bounds} (h : bounds.min < data.length) :
    let stop := min data.length bounds.max
    let boundary := fun pos => cut.isBoundary bounds pos (cut.tested data bounds pos)
    (∃ pos, bounds.min ≤ pos ∧ pos < stop ∧ cut.cutPoint data bounds = pos + 1 ∧ boundary pos = true ∧
        ∀ j, bounds.min ≤ j → j < pos → boundary j = false) ∨
      cut.cutPoint data bounds = stop ∧ ∀ j, bounds.min ≤ j → j < stop → boundary j = false := by
  intro stop boundary
  -- the scan counts positions from the smallest chunk
  have hback : ∀ j, bounds.min ≤ j → cut.isBoundary bounds (bounds.min + (j - bounds.min))
      (FirstHit.stateAt (cut.roll data) bounds.min (cut.primed data bounds.min)
          (j - bounds.min + 1)) = boundary j := by
    intro j hj
    rw [Nat.add_sub_cancel' hj]
    rfl
  unfold cutPoint
  rw [if_neg (by omega)]
  dsimp only
  cases hscan : FirstHit.scan (cut.roll data) (cut.isBoundary bounds)
    (min data.length bounds.max - bounds.min)
    bounds.min (cut.primed data bounds.min) with
  | inl at' =>
    obtain ⟨k, hk, rfl, hhit, hbefore⟩ := FirstHit.scan_found hscan
    refine .inl ⟨bounds.min + k, Nat.le_add_right _ _, by omega, rfl, ?_, fun j hlow hhigh => ?_⟩
    · rw [← hback _ (Nat.le_add_right _ _), Nat.add_sub_cancel_left]
      exact hhit
    · rw [← hback j hlow]
      exact hbefore _ (by omega)
  | inr hash =>
    obtain ⟨-, hnever⟩ := FirstHit.scan_missed hscan
    refine .inr ⟨rfl, fun j hlow hhigh => ?_⟩
    rw [← hback j hlow]
    exact hnever _ (by omega)

end KeyedCut

open Itsanas.Field in
/-- **The keyed cut tests the polynomial of the last bytes at the key's point.** The field
operations return the canonical residue of the exact result. Past the smallest chunk the value
tested is the canonical residue of the polynomial whose coefficients are the last bytes; the cut is
at the first boundary by that value; and positions with the same last bytes, on the same side of the
average, are boundaries alike. -/
theorem keyed_cut_polynomial (key : Bytes) :
    let cut := KeyedCut.new key
    (∀ a b, a < P → b < P → mul a b = a * b % P ∧ add a b = (a + b) % P) ∧
      (∀ base exponent, base < P → exponent < 2 ^ 32 → Field.pow base exponent = base ^ exponent % P) ∧
      (∀ (data : Bytes) (bounds : Bounds) (pos : ℕ), bounds.min ≤ pos → pos < data.length →
        cut.tested data bounds pos < P ∧
          (cut.tested data bounds pos : ZMod P) =
            KeyedCut.polynomial cut.point (KeyedCut.lastBytes data pos)) ∧
      (∀ (data : Bytes) (bounds : Bounds), bounds.min < data.length →
        let stop := min data.length bounds.max
        let boundary := fun pos => cut.isBoundary bounds pos (cut.tested data bounds pos)
        (∃ pos, bounds.min ≤ pos ∧ pos < stop ∧ cut.cutPoint data bounds = pos + 1 ∧
          boundary pos = true ∧
            ∀ j, bounds.min ≤ j → j < pos → boundary j = false) ∨
          cut.cutPoint data bounds = stop ∧ ∀ j, bounds.min ≤ j → j < stop → boundary j = false) ∧
      ∀ (data data' : Bytes) (bounds bounds' : Bounds) (pos pos' : ℕ), bounds.min ≤ pos →
        pos < data.length →
        bounds'.min ≤ pos' → pos' < data'.length →
          KeyedCut.lastBytes data pos = KeyedCut.lastBytes data' pos' →
        (pos < bounds.avg ↔ pos' < bounds'.avg) → bounds.strict = bounds'.strict →
          bounds.loose = bounds'.loose →
        cut.isBoundary bounds pos (cut.tested data bounds pos) =
          cut.isBoundary bounds' pos' (cut.tested data' bounds' pos') := by
  intro cut
  refine ⟨fun a b ha hb => ⟨mul_eq ha hb, add_eq ha hb⟩, fun base exponent hb he => pow_eq hb he,
    fun data bounds pos hmin hpos => KeyedCut.tested_eq key hmin hpos,
    fun data bounds h => KeyedCut.cutPoint_first cut h, ?_⟩
  intro data data' bounds bounds' pos pos' hmin hpos hmin' hpos' hbytes hside hstrict hloose
  obtain ⟨hlt, hvalue⟩ := KeyedCut.tested_eq key hmin hpos
  obtain ⟨hlt', hvalue'⟩ := KeyedCut.tested_eq key hmin' hpos'
  have hsame : cut.tested data bounds pos = cut.tested data' bounds' pos' := by
    refine eq_of_cast_eq hlt hlt' ?_
    rw [hvalue, hvalue', hbytes]
  unfold KeyedCut.isBoundary
  rw [hsame, hstrict, hloose, if_congr hside rfl rfl]

end Itsanas
