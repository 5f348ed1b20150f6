import Swamp.ExceptRules
import Swamp.Ops

/-!
# Cutting content into chunks

Content is stored in chunks, each named by its digest.  A byte array is cut in
place; a stream is cut as its pieces come, with what does not fill a chunk yet
kept aside.  The digest is a parameter; what a result asks of it is said there.
-/

namespace Swamp

namespace ChunkStore

open Js

/-- The bytes of a content.  A stream stands for the bytes it gives. -/
abbrev Bytes := List (Fin 256)

/-- `subarray`. -/
def subarray (bytes : Bytes) (start stop : ℕ) : Bytes := (bytes.take stop).drop start

/-- The loop of `cut` over a byte array. -/
def cutFrom (size : ℕ) (content : Bytes) (start : ℕ) : List Bytes :=
  if start < content.length ∧ 0 < size then
    subarray content start (start + size) :: cutFrom size content (start + size)
  else []
termination_by content.length - start
decreasing_by omega

/-- `cut` of a byte array. -/
def cutArray (size : ℕ) (content : Bytes) : List Bytes :=
  (if content.length = 0 then [[]] else []) ++ cutFrom size content 0

/-- `concat`: one piece is taken as it is, several are copied. -/
def concat (pieces : List Bytes) (length : ℕ) : Bytes :=
  match pieces with
  | [piece] => piece
  | pieces => pieces.flatten ++ List.replicate (length - pieces.flatten.length) 0

/-- What `cut` keeps of a stream. -/
structure Cutting where
  pending : List Bytes
  pendingBytes : ℕ
  yielded : Bool

def Cutting.start : Cutting := ⟨[], 0, false⟩

/-- The bytes pending, in one piece. -/
def Cutting.joined (cutting : Cutting) : Bytes := concat cutting.pending cutting.pendingBytes

/-- What is kept once a chunk was yielded. -/
def Cutting.afterChunk (size : ℕ) (cutting : Cutting) : Cutting :=
  ⟨if size < cutting.pendingBytes then [cutting.joined.drop size] else [],
    cutting.pendingBytes - size, true⟩

/-- The inner loop: every full chunk of what is pending. -/
def cutPending (size : ℕ) (cutting : Cutting) : List Bytes × Cutting :=
  if size ≤ cutting.pendingBytes ∧ 0 < size then
    let later := cutPending size (cutting.afterChunk size)
    (cutting.joined.take size :: later.1, later.2)
  else ([], cutting)
termination_by cutting.pendingBytes
decreasing_by
  unfold Cutting.afterChunk
  dsimp only
  omega

/-- `cut` of a stream, by its pieces. -/
def cutStream (size : ℕ) : List Bytes → Cutting → List Bytes
  | [], cutting =>
    if 0 < cutting.pendingBytes ∨ cutting.yielded = false then [cutting.joined] else []
  | piece :: rest, cutting =>
    let cut := cutPending size
      ⟨cutting.pending ++ [piece], cutting.pendingBytes + piece.length, cutting.yielded⟩
    cut.1 ++ cutStream size rest cut.2

/-- What is written: a byte array or a stream. -/
inductive Content where
  | array (bytes : Bytes)
  | stream (pieces : List Bytes)

/-- The bytes of a content. -/
def Content.bytes : Content → Bytes
  | .array bytes => bytes
  | .stream pieces => pieces.flatten

/-- `cut`. -/
def cut (size : ℕ) : Content → List Bytes
  | .array bytes => cutArray size bytes
  | .stream pieces => cutStream size pieces .start

/-- `BlobRef.create` of the fields a chunk store gives; none when it throws. -/
def createRef (sha256 : Sha256) (size : ℕ) (parts : Option (List BlobPart)) : Option BlobRef :=
  if maxSafeInteger < size then none
  else
    match parts with
    | none => some ⟨sha256, size, none, none⟩
    | some parts =>
      if parts.length < 2 then none
      else if parts.any (fun part => part.size < 1 || decide (maxSafeInteger < part.size)) then
        none
      else if (parts.map BlobPart.size).sum ≠ size then none
      else some ⟨sha256, size, some parts, none⟩

/-- `ContentPart`. -/
structure ContentPart where
  sha256 : Sha256
  size : ℕ
  offset : ℕ

/-- `ContentParts`. -/
structure ContentParts where
  ref : BlobRef
  sha256 : Sha256
  size : ℕ
  parts : List ContentPart

section

variable (sha256Hex : Bytes → Sha256)

/-- The loop of `refOf`: what the whole digest was updated with, the parts and
the size so far. -/
def refParts : List Bytes → Bytes × List ContentPart × ℕ → Bytes × List ContentPart × ℕ
  | [], done => done
  | chunk :: rest, (whole, parts, size) =>
    refParts rest
      (whole ++ chunk, parts ++ [⟨sha256Hex chunk, chunk.length, size⟩], size + chunk.length)

/-- `refOf`. -/
def refOf (chunkBytes : ℕ) (content : Content) : Option ContentParts :=
  let done := refParts sha256Hex (cut chunkBytes content) ([], [], 0)
  let sha256 := sha256Hex done.1
  let parts := done.2.1
  let ref :=
    if parts.length = 1 then createRef sha256 done.2.2 none
    else createRef sha256 done.2.2 (some (parts.map (fun part => ⟨part.sha256, part.size⟩)))
  ref.map (fun ref => ⟨ref, sha256, done.2.2, parts⟩)

/-- `DatastoreStorage`, over the states of a storage: an operation may fail.
`statSize` is there when the storage reads sizes, and `touch`, which answers
whether the chunk is missing, when it can touch. -/
structure DatastoreStorage (σ ε : Type) where
  has : σ → Sha256 → Except ε Bool
  statSize : Option (σ → Sha256 → Except ε (Option ℕ))
  touch : Option (σ → Sha256 → Except ε (Bool × σ))
  put : σ → Sha256 → Bytes → Except ε σ

/-- `ChunkBatch`. -/
structure ChunkBatch (σ ε : Type) where
  covers : σ → Sha256 → Bool
  includes : σ → Sha256 → Except ε σ
  put : σ → Sha256 → Bytes → Except ε σ

section

variable {σ ε : Type} (storage : DatastoreStorage σ ε) (batch : Option (ChunkBatch σ ε))

/-- Puts a chunk into the batch, or else the storage. -/
def putChunk (state : σ) (sha256 : Sha256) (bytes : Bytes) : Except ε σ :=
  match batch with
  | some batch => batch.put state sha256 bytes
  | none => storage.put state sha256 bytes

/-- Whether the storage has the chunk. -/
def isPresent (state : σ) (sha256 : Sha256) (bytes : Bytes) : Except ε Bool :=
  match storage.statSize with
  | some statSize => (statSize state sha256).map (fun size => size == some bytes.length)
  | none => storage.has state sha256

/-- `#store`. -/
def store (state : σ) (sha256 : Sha256) (bytes : Bytes) : Except ε σ :=
  if batch.any (fun batch => batch.covers state sha256) then .ok state
  else
    (isPresent storage state sha256 bytes).bind (fun present =>
      match storage.touch with
      | some touch =>
        if present then
          (touch state sha256).bind (fun touched =>
            if touched.1 then putChunk storage batch touched.2 sha256 bytes
            else
              match batch with
              | some batch => batch.includes touched.2 sha256
              | none => .ok touched.2)
        else putChunk storage batch state sha256 bytes
      | none => putChunk storage batch state sha256 bytes)

/-- Why a write throws. -/
inductive WriteError (ε : Type) where
  | storage (error : ε)
  | blobRef

/-- The loop of `write`. -/
def writeParts : List Bytes → σ → Bytes × List BlobPart × ℕ →
    Except ε (σ × Bytes × List BlobPart × ℕ)
  | [], state, done => .ok (state, done)
  | chunk :: rest, state, (whole, parts, size) =>
    (store storage batch state (sha256Hex chunk) chunk).bind (fun state =>
      writeParts rest state
        (whole ++ chunk, parts ++ [⟨sha256Hex chunk, chunk.length⟩], size + chunk.length))

/-- `write`, with what it leaves of the storage. -/
def write (chunkBytes : ℕ) (content : Content) (state : σ) :
    Except (WriteError ε) (BlobRef × σ) :=
  match writeParts sha256Hex storage batch (cut chunkBytes content) state ([], [], 0) with
  | .error error => .error (.storage error)
  | .ok (state, whole, parts, size) =>
    let ref :=
      if parts.length = 1 then createRef (sha256Hex whole) size none
      else createRef (sha256Hex whole) size (some parts)
    match ref with
    | some ref => .ok (ref, state)
    | none => .error .blobRef

end

/-- Why a read errors. -/
inductive ReadError where
  | missing
  | wrongSize
  | wrongChunk
  | wrongContent

/-- The pulls of a read, as long as they hand on a chunk: what was handed on, and
the error that ended it.  `get` answers the `next`th request. -/
def readParts (get : ℕ → Sha256 → Option Bytes) (ref : BlobRef) :
    List BlobPart → ℕ → Bytes → List Bytes × Option ReadError
  | [], _, _ => ([], none)
  | part :: rest, next, whole =>
    match get next part.sha256 with
    | none => ([], some .missing)
    | some bytes =>
      if bytes.length ≠ part.size then ([], some .wrongSize)
      else if sha256Hex bytes ≠ part.sha256 then ([], some .wrongChunk)
      else if rest = [] ∧ ref.parts.isSome ∧ sha256Hex (whole ++ bytes) ≠ ref.sha256 then
        ([], some .wrongContent)
      else
        let later := readParts get ref rest (next + 1) (whole ++ bytes)
        (bytes :: later.1, later.2)

/-- The parts of a reference. -/
def partsOf (ref : BlobRef) : List BlobPart := ref.parts.getD [⟨ref.sha256, ref.size⟩]

/-- `read`, to its end. -/
def read (get : ℕ → Sha256 → Option Bytes) (ref : BlobRef) : List Bytes × Option ReadError :=
  readParts sha256Hex get ref (partsOf ref) 0 []

end

/-- The chunks of bytes, none of them empty. -/
def chunksOf (size : ℕ) (bytes : Bytes) : List Bytes :=
  if bytes ≠ [] ∧ 0 < size then bytes.take size :: chunksOf size (bytes.drop size) else []
termination_by bytes.length
decreasing_by
  have hpos := List.length_pos_of_ne_nil (by tauto : bytes ≠ [])
  rw [List.length_drop]
  omega

variable {size : ℕ}

theorem chunksOf_eq_nil (hsize : 0 < size) (bytes : Bytes) :
    chunksOf size bytes = [] ↔ bytes = [] := by
  rw [chunksOf]
  simp [hsize]

theorem cutFrom_eq (size : ℕ) (content : Bytes) (start : ℕ) :
    cutFrom size content start = chunksOf size (content.drop start) := by
  fun_induction cutFrom size content start with
  | case1 start h ih =>
    have hsome : content.drop start ≠ [] := by
      rw [ne_eq, List.drop_eq_nil_iff]
      omega
    rw [chunksOf, if_pos ⟨hsome, h.2⟩, List.drop_drop, ← ih]
    unfold subarray
    rw [List.drop_take, Nat.add_sub_cancel_left]
  | case2 start h =>
    rw [chunksOf, if_neg]
    rw [ne_eq, List.drop_eq_nil_iff]
    omega

/-- The chunks of an array. -/
theorem cutArray_eq (size : ℕ) (content : Bytes) :
    cutArray size content = if content = [] then [[]] else chunksOf size content := by
  unfold cutArray
  rw [cutFrom_eq, List.drop_zero]
  by_cases hempty : content = []
  · rw [hempty, chunksOf]
    rfl
  · have hlength : content.length ≠ 0 := fun h => hempty (List.length_eq_zero_iff.mp h)
    rw [if_neg hlength, if_neg hempty, List.nil_append]

/-- What is pending is counted. -/
def Cutting.Counted (cutting : Cutting) : Prop :=
  cutting.pendingBytes = cutting.pending.flatten.length

variable {cutting : Cutting}

theorem joined_counted (h : cutting.Counted) : cutting.joined = cutting.pending.flatten := by
  unfold Cutting.joined concat
  rw [h]
  split
  case h_1 piece heq => rw [heq, List.flatten_singleton]
  case h_2 => rw [Nat.sub_self, List.replicate_zero, List.append_nil]

/-- **The inner loop** leaves less than a chunk pending. -/
theorem cutPending_spec (hsize : 0 < size) (h : cutting.Counted) (rest : Bytes) :
    (cutPending size cutting).2.Counted ∧ (cutPending size cutting).2.pendingBytes < size ∧
      chunksOf size (cutting.pending.flatten ++ rest) =
        (cutPending size cutting).1 ++
          chunksOf size ((cutPending size cutting).2.pending.flatten ++ rest) ∧
      ((cutPending size cutting).2.yielded =
        (cutting.yielded || !(cutPending size cutting).1.isEmpty)) := by
  fun_induction cutPending size cutting with
  | case1 cutting hfull later ih =>
    have hlength : cutting.pendingBytes = cutting.pending.flatten.length := h
    have hflatten : (cutting.afterChunk size).pending.flatten =
        cutting.pending.flatten.drop size := by
      unfold Cutting.afterChunk
      rw [joined_counted h]
      split
      case isTrue => rw [List.flatten_singleton]
      case isFalse =>
        rw [List.flatten_nil, eq_comm, List.drop_eq_nil_iff]
        omega
    have hcounted : (cutting.afterChunk size).Counted := by
      unfold Cutting.Counted
      rw [hflatten, List.length_drop, ← hlength]
      rfl
    obtain ⟨hdone, hless, hchunks, hyielded⟩ := ih hcounted
    rw [hflatten] at hchunks
    refine ⟨hdone, hless, ?_, ?_⟩
    · have hsome : cutting.pending.flatten ++ rest ≠ [] := by
        intro hempty
        rw [(List.append_eq_nil_iff.mp hempty).1, List.length_nil] at hlength
        omega
      rw [chunksOf, if_pos ⟨hsome, hsize⟩, List.take_append_of_le_length (by omega),
        List.drop_append_of_le_length (by omega), hchunks, joined_counted h]
      rfl
    · dsimp only
      rw [hyielded]
      simp [Cutting.afterChunk]
  | case2 cutting hless =>
    refine ⟨h, ?_, by simp, by simp⟩
    dsimp only
    omega

/-- **A stream**, with less than a chunk pending. -/
theorem cutStream_spec (hsize : 0 < size) (pieces : List Bytes) (h : cutting.Counted)
    (hless : cutting.pendingBytes < size) :
    cutStream size pieces cutting =
      if cutting.pending.flatten ++ pieces.flatten = [] ∧ cutting.yielded = false then [[]]
      else chunksOf size (cutting.pending.flatten ++ pieces.flatten) := by
  induction pieces generalizing cutting with
  | nil =>
    have hlength : cutting.pendingBytes = cutting.pending.flatten.length := h
    unfold cutStream
    rw [joined_counted h, List.flatten_nil, List.append_nil]
    by_cases hempty : cutting.pending.flatten = []
    · rw [hempty] at hlength ⊢
      rw [List.length_nil] at hlength
      rw [hlength, chunksOf]
      simp
    · have hpos := List.length_pos_of_ne_nil hempty
      have hrest : cutting.pending.flatten.drop size = [] := by
        rw [List.drop_eq_nil_iff]
        omega
      rw [if_pos (Or.inl (by omega)), if_neg (fun hnone => hempty hnone.1), chunksOf,
        if_pos ⟨hempty, hsize⟩, List.take_of_length_le (by omega), hrest, chunksOf]
      simp
  | cons piece rest ih =>
    have hnext : Cutting.Counted
        ⟨cutting.pending ++ [piece], cutting.pendingBytes + piece.length, cutting.yielded⟩ := by
      have hlength : cutting.pendingBytes = cutting.pending.flatten.length := h
      unfold Cutting.Counted
      simp [hlength]
    obtain ⟨hcounted, hpending, hchunks, hyielded⟩ :=
      cutPending_spec hsize hnext rest.flatten
    dsimp only at hchunks hyielded
    unfold cutStream
    dsimp only
    rw [ih hcounted hpending]
    generalize cutPending size _ = done at hcounted hpending hchunks hyielded ⊢
    obtain ⟨out, cutting'⟩ := done
    dsimp only at hcounted hpending hchunks hyielded ⊢
    have hbytes : cutting.pending.flatten ++ (piece :: rest).flatten =
        (cutting.pending ++ [piece]).flatten ++ rest.flatten := by simp
    rw [hbytes]
    have hnone := chunksOf_eq_nil hsize ((cutting.pending ++ [piece]).flatten ++ rest.flatten)
    rw [hchunks] at hnone ⊢
    cases out with
    | nil =>
      rw [List.nil_append, chunksOf_eq_nil hsize] at hnone
      simp only [hyielded, hnone, List.nil_append, List.isEmpty_nil, Bool.not_true,
        Bool.or_false]
    | cons chunk out =>
      have hsome : ¬ ((cutting.pending ++ [piece]).flatten ++ rest.flatten = []) := by
        rw [← hnone]
        exact List.cons_ne_nil _ _
      have hyield : ¬ (cutting'.pending.flatten ++ rest.flatten = [] ∧
          cutting'.yielded = false) := by
        rw [hyielded]
        simp
      rw [if_neg hyield, if_neg (fun hempty => hsome hempty.1)]

/-- **A stream is cut as the array of its bytes.** -/
theorem cut_eq (hsize : 0 < size) (content : Content) :
    cut size content = cutArray size content.bytes := by
  cases content with
  | array bytes => rfl
  | stream pieces =>
    rw [cutArray_eq]
    unfold cut Content.bytes
    dsimp only
    have hcounted : Cutting.start.Counted := rfl
    rw [cutStream_spec hsize pieces hcounted hsize]
    simp [Cutting.start]

theorem chunksOf_flatten (hsize : 0 < size) (bytes : Bytes) :
    (chunksOf size bytes).flatten = bytes := by
  fun_induction chunksOf size bytes with
  | case1 bytes h ih => rw [List.flatten_cons, ih, List.take_append_drop]
  | case2 bytes h =>
    have hempty : bytes = [] := by
      by_contra hsome
      exact h ⟨hsome, hsize⟩
    rw [hempty, List.flatten_nil]

theorem chunksOf_full (size : ℕ) (bytes : Bytes) :
    ∀ chunk ∈ (chunksOf size bytes).dropLast, chunk.length = size := by
  fun_induction chunksOf size bytes with
  | case1 bytes h ih =>
    intro chunk hchunk
    by_cases hlast : chunksOf size (bytes.drop size) = []
    · rw [hlast, List.dropLast_singleton] at hchunk
      cases hchunk
    · rw [List.dropLast_cons_of_ne_nil hlast] at hchunk
      cases hchunk with
      | head =>
        have hmore : bytes.drop size ≠ [] := by
          intro hnone
          exact hlast ((chunksOf_eq_nil h.2 _).mpr hnone)
        rw [ne_eq, List.drop_eq_nil_iff] at hmore
        rw [List.length_take]
        omega
      | tail _ hmem => exact ih chunk hmem
  | case2 bytes h =>
    intro chunk hchunk
    cases hchunk

theorem chunksOf_bounds (size : ℕ) (bytes : Bytes) :
    ∀ chunk ∈ chunksOf size bytes, 1 ≤ chunk.length ∧ chunk.length ≤ size := by
  fun_induction chunksOf size bytes with
  | case1 bytes h ih =>
    intro chunk hchunk
    cases hchunk with
    | head =>
      have hpos := List.length_pos_of_ne_nil h.1
      rw [List.length_take]
      omega
    | tail _ hmem => exact ih chunk hmem
  | case2 bytes h =>
    intro chunk hchunk
    cases hchunk

/-- **The chunks of content**: they are its bytes, all but the last are full, and
only no bytes give an empty one. -/
theorem cut_spec (hsize : 0 < size) (content : Content) :
    (cut size content).flatten = content.bytes ∧
      (∀ chunk ∈ (cut size content).dropLast, chunk.length = size) ∧
      (∀ chunk ∈ cut size content, chunk.length ≤ size) ∧
      ((∃ chunk ∈ cut size content, chunk = []) ↔ content.bytes = []) ∧
      cut size content ≠ [] := by
  rw [cut_eq hsize, cutArray_eq]
  by_cases hempty : content.bytes = []
  · rw [if_pos hempty, hempty]
    simp
  · rw [if_neg hempty]
    refine ⟨chunksOf_flatten hsize _, chunksOf_full size _, ?_, ?_, ?_⟩
    · intro chunk hchunk
      exact (chunksOf_bounds size _ chunk hchunk).2
    · refine iff_of_false ?_ hempty
      intro hsome
      obtain ⟨chunk, hchunk, hnone⟩ := hsome
      have hpos := (chunksOf_bounds size _ chunk hchunk).1
      rw [hnone, List.length_nil] at hpos
      omega
    · rw [ne_eq, chunksOf_eq_nil hsize]
      exact hempty

section

variable (sha256Hex : Bytes → Sha256)

/-- The parts of chunks. -/
def blobParts (chunks : List Bytes) : List BlobPart :=
  chunks.map (fun chunk => ⟨sha256Hex chunk, chunk.length⟩)

/-- The reference of chunks. -/
def refOfChunks (chunks : List Bytes) : Option BlobRef :=
  createRef (sha256Hex chunks.flatten) chunks.flatten.length
    (if chunks.length = 1 then none else some (blobParts sha256Hex chunks))

variable {sha256Hex}

theorem refParts_spec (chunks : List Bytes) (whole : Bytes) (parts : List ContentPart)
    (size : ℕ) :
    (refParts sha256Hex chunks (whole, parts, size)).1 = whole ++ chunks.flatten ∧
      (refParts sha256Hex chunks (whole, parts, size)).2.1.map
          (fun part => BlobPart.mk part.sha256 part.size) =
        parts.map (fun part => BlobPart.mk part.sha256 part.size) ++ blobParts sha256Hex chunks ∧
      (refParts sha256Hex chunks (whole, parts, size)).2.2 = size + chunks.flatten.length := by
  induction chunks generalizing whole parts size with
  | nil => simp [refParts, blobParts]
  | cons chunk rest ih =>
    obtain ⟨hwhole, hparts, hsize⟩ := ih (whole ++ chunk)
      (parts ++ [⟨sha256Hex chunk, chunk.length, size⟩]) (size + chunk.length)
    unfold refParts
    refine ⟨?_, ?_, ?_⟩
    · rw [hwhole]
      simp
    · rw [hparts]
      simp [blobParts]
    · rw [hsize]
      simp
      omega

/-- **`refOf`** gives the reference of the chunks. -/
theorem refOf_eq (chunkBytes : ℕ) (content : Content) :
    (refOf sha256Hex chunkBytes content).map ContentParts.ref =
      refOfChunks sha256Hex (cut chunkBytes content) := by
  obtain ⟨hwhole, hparts, hsize⟩ := @refParts_spec sha256Hex (cut chunkBytes content) [] [] 0
  have hlength := congrArg List.length hparts
  rw [List.length_map, List.map_nil, List.nil_append] at hlength
  unfold blobParts at hlength
  rw [List.length_map] at hlength
  unfold refOf refOfChunks
  dsimp only
  rw [hwhole, hparts, hsize, hlength, List.nil_append, Nat.zero_add, List.map_nil, List.nil_append,
    Option.map_map]
  split
  case isTrue => exact Option.map_id'
  case isFalse => exact Option.map_id'

variable {σ ε : Type} {storage : DatastoreStorage σ ε} {batch : Option (ChunkBatch σ ε)}

theorem writeParts_spec (chunks : List Bytes) (state : σ) (whole : Bytes) (parts : List BlobPart)
    (size : ℕ) {state' : σ} {whole' : Bytes} {parts' : List BlobPart} {size' : ℕ}
    (h : writeParts sha256Hex storage batch chunks state (whole, parts, size) =
      .ok (state', whole', parts', size')) :
    whole' = whole ++ chunks.flatten ∧ parts' = parts ++ blobParts sha256Hex chunks ∧
      size' = size + chunks.flatten.length := by
  induction chunks generalizing state whole parts size with
  | nil =>
    cases h
    simp [blobParts]
  | cons chunk rest ih =>
    unfold writeParts at h
    obtain ⟨next, -, hrest⟩ := ExceptRules.bind_ok h
    obtain ⟨hwhole, hparts, hsize⟩ := ih _ _ _ _ hrest
    refine ⟨?_, ?_, ?_⟩
    · rw [hwhole]
      simp
    · rw [hparts]
      simp [blobParts]
    · rw [hsize]
      simp
      omega

variable {ref : BlobRef}

/-- A write whose parts were stored creates the reference of the chunks. -/
theorem write_eq (chunkBytes : ℕ) (content : Content) (state : σ) :
    write sha256Hex storage batch chunkBytes content state =
      match writeParts sha256Hex storage batch (cut chunkBytes content) state ([], [], 0) with
      | .error error => .error (.storage error)
      | .ok (stored, _) =>
        match refOfChunks sha256Hex (cut chunkBytes content) with
        | some ref => .ok (ref, stored)
        | none => .error .blobRef := by
  unfold write
  split
  case h_1 error herror => rw [herror]
  case h_2 stored whole parts size hparts =>
    obtain ⟨hwhole, hlist, hsize⟩ := writeParts_spec _ _ _ _ _ hparts
    have hlength : parts.length = (cut chunkBytes content).length := by
      rw [hlist, List.nil_append, blobParts, List.length_map]
    rw [List.nil_append] at hwhole hlist
    rw [Nat.zero_add] at hsize
    have hcreate : (if (cut chunkBytes content).length = 1 then
          createRef (sha256Hex (cut chunkBytes content).flatten)
            (cut chunkBytes content).flatten.length none
        else createRef (sha256Hex (cut chunkBytes content).flatten)
          (cut chunkBytes content).flatten.length
            (some (blobParts sha256Hex (cut chunkBytes content)))) =
        refOfChunks sha256Hex (cut chunkBytes content) := by
      unfold refOfChunks
      split <;> rfl
    rw [hparts]
    dsimp only
    rw [hlength, hwhole, hsize, hlist, hcreate]

/-- **`write`** gives the reference of the chunks. -/
theorem write_ref {chunkBytes : ℕ} {content : Content} {state state' : σ}
    (h : write sha256Hex storage batch chunkBytes content state = .ok (ref, state')) :
    refOfChunks sha256Hex (cut chunkBytes content) = some ref := by
  rw [write_eq] at h
  split at h
  case h_1 => cases h
  case h_2 stored done hparts =>
    split at h
    case h_1 created hcreated =>
      cases h
      exact hcreated
    case h_2 => cases h

/-- An operation of the storage or of the batch fails with this error. -/
inductive OperationFails (storage : DatastoreStorage σ ε) (batch : Option (ChunkBatch σ ε))
    (error : ε) : Prop
  | has (state : σ) (sha256 : Sha256) (h : storage.has state sha256 = .error error)
  | statSize (statSize : σ → Sha256 → Except ε (Option ℕ)) (hsome : storage.statSize = some statSize)
      (state : σ) (sha256 : Sha256) (h : statSize state sha256 = .error error)
  | touch (touch : σ → Sha256 → Except ε (Bool × σ)) (hsome : storage.touch = some touch)
      (state : σ) (sha256 : Sha256) (h : touch state sha256 = .error error)
  | put (state : σ) (sha256 : Sha256) (bytes : Bytes)
      (h : storage.put state sha256 bytes = .error error)
  | includes (held : ChunkBatch σ ε) (hsome : batch = some held) (state : σ) (sha256 : Sha256)
      (h : held.includes state sha256 = .error error)
  | batchPut (held : ChunkBatch σ ε) (hsome : batch = some held) (state : σ) (sha256 : Sha256)
      (bytes : Bytes) (h : held.put state sha256 bytes = .error error)

variable {error : ε}

theorem putChunk_error {state : σ} {sha256 : Sha256} {bytes : Bytes}
    (h : putChunk storage batch state sha256 bytes = .error error) :
    OperationFails storage batch error := by
  unfold putChunk at h
  split at h
  case h_1 held => exact .batchPut held rfl state sha256 bytes h
  case h_2 => exact .put state sha256 bytes h

theorem isPresent_error {state : σ} {sha256 : Sha256} {bytes : Bytes}
    (h : isPresent storage state sha256 bytes = .error error) :
    OperationFails storage batch error := by
  unfold isPresent at h
  split at h
  case h_1 statSize hsome =>
    cases hsize : statSize state sha256 with
    | error cause =>
      rw [hsize] at h
      cases h
      exact .statSize statSize hsome state sha256 hsize
    | ok size =>
      rw [hsize] at h
      cases h
  case h_2 => exact .has state sha256 h

/-- Storing a chunk fails only where an operation does. -/
theorem store_error {state : σ} {sha256 : Sha256} {bytes : Bytes}
    (h : store storage batch state sha256 bytes = .error error) :
    OperationFails storage batch error := by
  unfold store at h
  split at h
  · cases h
  · rcases ExceptRules.bind_error h with hpresent | ⟨present, -, h⟩
    · exact isPresent_error hpresent
    · split at h
      case h_1 touch htouch =>
        split at h
        · rcases ExceptRules.bind_error h with htouched | ⟨touched, -, h⟩
          · exact .touch touch htouch state sha256 htouched
          · split at h
            · exact putChunk_error h
            · split at h
              case h_1 => exact .includes _ rfl touched.2 sha256 h
              case h_2 => cases h
        · exact putChunk_error h
      case h_2 => exact putChunk_error h

theorem writeParts_error (chunks : List Bytes) (state : σ) (done : Bytes × List BlobPart × ℕ)
    (h : writeParts sha256Hex storage batch chunks state done = .error error) :
    OperationFails storage batch error := by
  induction chunks generalizing state done with
  | nil => cases h
  | cons chunk rest ih =>
    obtain ⟨whole, parts, size⟩ := done
    rw [writeParts] at h
    rcases ExceptRules.bind_error h with hstore | ⟨next, -, hrest⟩
    · exact store_error hstore
    · exact ih _ _ hrest

/-- **`write` fails only where an operation does**, its reference being one. -/
theorem write_error {chunkBytes : ℕ} {content : Content} {state : σ} {failure : WriteError ε}
    (href : (refOfChunks sha256Hex (cut chunkBytes content)).isSome = true)
    (h : write sha256Hex storage batch chunkBytes content state = .error failure) :
    ∃ cause, failure = .storage cause ∧ OperationFails storage batch cause := by
  rw [write_eq] at h
  split at h
  case h_1 cause hparts =>
    cases h
    exact ⟨cause, rfl, writeParts_error _ _ _ hparts⟩
  case h_2 =>
    split at h
    case h_1 => cases h
    case h_2 hnone =>
      rw [hnone] at href
      cases href

theorem refOfChunks_isSome (hsize : 0 < size) (content : Content)
    (hsafe : content.bytes.length ≤ maxSafeInteger) :
    (refOfChunks sha256Hex (cut size content)).isSome = true := by
  obtain ⟨hflatten, -, -, hempty, hnone⟩ := cut_spec hsize content
  unfold refOfChunks createRef
  rw [if_neg (by rw [hflatten]; omega)]
  by_cases hone : (cut size content).length = 1
  · rw [if_pos hone]
    rfl
  · rw [if_neg hone]
    dsimp only
    have hpos := List.length_pos_of_ne_nil hnone
    have hsum : ((blobParts sha256Hex (cut size content)).map BlobPart.size).sum =
        (cut size content).flatten.length := by
      unfold blobParts
      rw [List.map_map, List.length_flatten]
      rfl
    have hsizes : (blobParts sha256Hex (cut size content)).any
        (fun part => part.size < 1 || decide (maxSafeInteger < part.size)) = false := by
      rw [List.any_eq_false]
      intro part hpart
      obtain ⟨chunk, hchunk, hpart⟩ := List.mem_map.mp hpart
      have hle := (List.sublist_flatten_of_mem hchunk).length_le
      rw [hflatten] at hle
      have hfull : 1 ≤ chunk.length := by
        by_contra hshort
        have hbytes := hempty.mp ⟨chunk, hchunk, List.length_eq_zero_iff.mp (by omega)⟩
        rw [cut_eq hsize, cutArray_eq, if_pos hbytes] at hone
        exact hone rfl
      rw [← hpart]
      simp only [Bool.or_eq_true, decide_eq_true_eq]
      omega
    have hlength : (blobParts sha256Hex (cut size content)).length =
        (cut size content).length := List.length_map _
    rw [hlength, if_neg (by omega), hsizes, if_neg Bool.false_ne_true, hsum]
    simp

theorem partsOf_ref {chunks : List Bytes} (h : refOfChunks sha256Hex chunks = some ref) :
    partsOf ref = blobParts sha256Hex chunks ∧ ref.sha256 = sha256Hex chunks.flatten := by
  unfold refOfChunks createRef at h
  split at h
  case isTrue => cases h
  case isFalse =>
    by_cases hone : chunks.length = 1
    · rw [if_pos hone] at h
      cases h
      obtain ⟨chunk, hchunk⟩ := List.length_eq_one_iff.mp hone
      rw [hchunk]
      simp [partsOf, blobParts]
    · rw [if_neg hone] at h
      dsimp only at h
      grind [partsOf]

variable {get : ℕ → Sha256 → Option Bytes}

theorem readParts_holding (chunks : List Bytes) (next : ℕ) (whole : Bytes)
    (hsha : ref.sha256 = sha256Hex (whole ++ chunks.flatten))
    (hget : ∀ i chunk, chunks[i]? = some chunk → get (next + i) (sha256Hex chunk) = some chunk) :
    readParts sha256Hex get ref (blobParts sha256Hex chunks) next whole = (chunks, none) := by
  induction chunks generalizing next whole with
  | nil => rfl
  | cons chunk rest ih =>
    have hfirst : get next (sha256Hex chunk) = some chunk := hget 0 chunk rfl
    have hlater := ih (next + 1) (whole ++ chunk)
      (by rw [hsha, List.flatten_cons, List.append_assoc])
      (fun i other hother => by
        have hother' := hget (i + 1) other hother
        rwa [show next + (i + 1) = next + 1 + i by omega] at hother')
    have hwhole : ¬ (rest.map (fun chunk => (⟨sha256Hex chunk, chunk.length⟩ : BlobPart)) = [] ∧
        ref.parts.isSome ∧ sha256Hex (whole ++ chunk) ≠ ref.sha256) := by
      intro hwrong
      rw [List.map_eq_nil_iff.mp hwrong.1] at hsha
      rw [hsha, List.flatten_cons, List.flatten_nil, List.append_nil] at hwrong
      exact hwrong.2.2 rfl
    unfold blobParts at hlater ⊢
    rw [List.map_cons, readParts, hfirst]
    dsimp only
    rw [if_neg (fun hwrong => hwrong rfl), if_neg (fun hwrong => hwrong rfl), if_neg hwhole,
      hlater]

theorem readParts_other (chunks : List Bytes) (next : ℕ) (whole : Bytes) {i : ℕ}
    {chunk bytes : Bytes} (hchunk : chunks[i]? = some chunk)
    (hget : get (next + i) (sha256Hex chunk) = some bytes)
    (hother : sha256Hex bytes ≠ sha256Hex chunk) :
    ∃ error, (readParts sha256Hex get ref (blobParts sha256Hex chunks) next whole).2 =
        some error ∧
      (readParts sha256Hex get ref (blobParts sha256Hex chunks) next whole).1.length <
        chunks.length := by
  induction chunks generalizing next whole i with
  | nil => cases hchunk
  | cons first rest ih =>
    unfold blobParts
    rw [List.map_cons, readParts]
    split
    case h_1 => exact ⟨_, rfl, by simp⟩
    case h_2 answered hanswered =>
      split
      case isTrue => exact ⟨_, rfl, by simp⟩
      case isFalse =>
        split
        case isTrue => exact ⟨_, rfl, by simp⟩
        case isFalse hsame =>
          rw [not_not] at hsame
          cases i with
          | zero =>
            cases hchunk
            rw [Nat.add_zero, hanswered] at hget
            cases hget
            exact absurd hsame hother
          | succ i =>
            rw [show next + (i + 1) = next + 1 + i by omega] at hget
            obtain ⟨error, herror, hlength⟩ := ih (next + 1) (whole ++ answered) hchunk hget
            split
            case isTrue => exact ⟨_, rfl, by simp⟩
            case isFalse =>
              refine ⟨error, herror, ?_⟩
              dsimp only
              rw [List.length_cons, List.length_cons]
              exact Nat.succ_lt_succ hlength

end

/-- No two of these byte strings have one digest. -/
def CollisionFree (sha256Hex : Bytes → Sha256) (strings : Set Bytes) : Prop :=
  Set.InjOn sha256Hex strings

/-- What a storage answers, and the chunks it is asked for. -/
def compared (get : ℕ → Sha256 → Option Bytes) (chunks : List Bytes) : Set Bytes :=
  {bytes | bytes ∈ chunks ∨ ∃ next sha256, get next sha256 = some bytes}

/-- **Chunks.** Cutting gives one reference for the array of the bytes and for
every stream of them; the chunks are the bytes; writing them gives that reference
or fails where an operation of the storage does; reading the reference gives them
back, or errors before the last chunk where the storage answers other bytes. -/
theorem chunks_stored (sha256Hex : Bytes → Sha256) (size : ℕ) (hsize : 1 ≤ size)
    (pieces : List Bytes) :
    refOf sha256Hex size (.stream pieces) = refOf sha256Hex size (.array pieces.flatten) ∧
    (∀ (σ ε : Type) (storage : DatastoreStorage σ ε) (batch : Option (ChunkBatch σ ε)) (state : σ),
      write sha256Hex storage batch size (.stream pieces) state =
        write sha256Hex storage batch size (.array pieces.flatten) state ∧
      (∀ ref state', write sha256Hex storage batch size (.stream pieces) state =
          .ok (ref, state') →
        (refOf sha256Hex size (.stream pieces)).map ContentParts.ref = some ref) ∧
      ∀ failure, pieces.flatten.length ≤ maxSafeInteger →
        write sha256Hex storage batch size (.stream pieces) state = .error failure →
        ∃ cause, failure = .storage cause ∧ OperationFails storage batch cause) ∧
    (pieces.flatten.length ≤ maxSafeInteger →
      (refOf sha256Hex size (.stream pieces)).isSome = true) ∧
    (cut size (.stream pieces)).flatten = pieces.flatten ∧
    (∀ chunk ∈ (cut size (.stream pieces)).dropLast, chunk.length = size) ∧
    ((∃ chunk ∈ cut size (.stream pieces), chunk = []) ↔ pieces.flatten = []) ∧
    ∀ parts, refOf sha256Hex size (.stream pieces) = some parts →
      ∀ get : ℕ → Sha256 → Option Bytes,
        ((∀ i chunk, (cut size (.stream pieces))[i]? = some chunk →
            get i (sha256Hex chunk) = some chunk) →
          read sha256Hex get parts.ref = (cut size (.stream pieces), none)) ∧
        (CollisionFree sha256Hex (compared get (cut size (.stream pieces))) →
          (∃ (i : ℕ) (chunk bytes : Bytes), (cut size (.stream pieces))[i]? = some chunk ∧
            get i (sha256Hex chunk) = some bytes ∧ bytes ≠ chunk) →
          ∃ error, (read sha256Hex get parts.ref).2 = some error ∧
            (read sha256Hex get parts.ref).1.length < (cut size (.stream pieces)).length) := by
  have hcut : cut size (.stream pieces) = cut size (.array pieces.flatten) := by
    rw [cut_eq hsize, cut_eq hsize]
    rfl
  obtain ⟨hflatten, hfull, -, hempty, -⟩ := cut_spec hsize (.stream pieces)
  refine ⟨?_, ?_, ?_, hflatten, hfull, hempty, ?_⟩
  · unfold refOf
    rw [hcut]
  · intro σ ε storage batch state
    refine ⟨?_, ?_, ?_⟩
    · unfold write
      rw [hcut]
    · intro ref state' hwrite
      rw [refOf_eq]
      exact write_ref hwrite
    · intro failure hsafe hwrite
      exact write_error (refOfChunks_isSome hsize (.stream pieces) hsafe) hwrite
  · intro hsafe
    have hsome : (refOfChunks sha256Hex (cut size (.stream pieces))).isSome = true :=
      refOfChunks_isSome hsize (.stream pieces) hsafe
    rw [← refOf_eq, Option.isSome_map] at hsome
    exact hsome
  · intro parts hparts get
    have href : (refOf sha256Hex size (.stream pieces)).map ContentParts.ref =
        refOfChunks sha256Hex (cut size (.stream pieces)) := refOf_eq size (.stream pieces)
    rw [hparts, Option.map_some] at href
    obtain ⟨hlist, hsha⟩ := partsOf_ref href.symm
    unfold read
    rw [hlist]
    constructor
    · intro hholding
      refine readParts_holding _ 0 [] (by rw [hsha, List.nil_append]) ?_
      intro i chunk hchunk
      rw [Nat.zero_add]
      exact hholding i chunk hchunk
    · intro hfree hother
      obtain ⟨i, chunk, bytes, hchunk, hget, hne⟩ := hother
      refine readParts_other _ 0 [] hchunk (by rw [Nat.zero_add]; exact hget) ?_
      intro hsame
      have hbytes : bytes ∈ compared get (cut size (.stream pieces)) := Or.inr ⟨_, _, hget⟩
      have hmem : chunk ∈ compared get (cut size (.stream pieces)) :=
        Or.inl (List.mem_of_getElem? hchunk)
      exact hne (hfree hbytes hmem hsame)

theorem isSha256Hex_of_all {value : JsString} (hlength : value.length = 64)
    (hall : value.all (fun u => (48 ≤ u.val && u.val ≤ 57) || (97 ≤ u.val && u.val ≤ 102)) =
      true) : isSha256Hex value := by
  refine ⟨hlength, ?_⟩
  intro u hu
  simpa using List.all_eq_true.mp hall u hu

/-- The digests of the bytes 1, 2, and 1 and 2. -/
def bytesSha256 (bytes : Bytes) : Sha256 :=
  if bytes = [1] then
    ⟨js "4bf5122f344554c53bde2ebb8cd2b7e3d1600ad631c385a5d7cce23c7785459a",
      isSha256Hex_of_all (by decide +kernel) (by decide +kernel)⟩
  else if bytes = [2] then
    ⟨js "dbc1b4c900ffe48d575b5da5c638040125f65db0fe3e24494b76ea986457d986",
      isSha256Hex_of_all (by decide +kernel) (by decide +kernel)⟩
  else ⟨js "a12871fee210fb8619291eaea194581cbd2531e4b23759d225f6806923f63222",
      isSha256Hex_of_all (by decide +kernel) (by decide +kernel)⟩

/-- A storage that holds the two chunks. -/
def holding (sha256 : Sha256) : Option Bytes :=
  if sha256 = bytesSha256 [1] then some [1]
  else if sha256 = bytesSha256 [2] then some [2]
  else none

/-- A storage that answers every request with the byte 1. -/
def answersOne (_ : ℕ) (_ : Sha256) : Option Bytes := some [1]

theorem chunks_stored_bytes :
    ∃ parts, refOf bytesSha256 1 (.stream [[], [1, 2], []]) = some parts ∧
      read bytesSha256 (fun _ => holding) parts.ref = ([[1], [2]], none) ∧
      ∃ error, (read bytesSha256 answersOne parts.ref).2 = some error ∧
        (read bytesSha256 answersOne parts.ref).1.length < 2 := by
  obtain ⟨-, -, hsome, -, -, -, hread⟩ :=
    chunks_stored bytesSha256 1 (by decide) [[], [1, 2], []]
  obtain ⟨parts, hparts⟩ := Option.isSome_iff_exists.mp (hsome (by decide))
  have hcut : cut 1 (.stream [[], [1, 2], []]) = [[1], [2]] := by decide +kernel
  have hother := (hread parts hparts answersOne).2
  have hholding := (hread parts hparts (fun _ => holding)).1
  rw [hcut] at hother hholding
  refine ⟨parts, hparts, hholding ?_, hother ?_ ⟨1, [2], [1], rfl, rfl, by decide⟩⟩
  · intro i chunk hchunk
    obtain h | h := List.mem_pair.mp (List.mem_of_getElem? hchunk)
    · rw [h]
      decide +kernel
    · rw [h]
      decide +kernel
  · -- the two chunks have digests of their own
    have honly : ∀ bytes ∈ compared answersOne [[1], [2]], bytes = [1] ∨ bytes = [2] := by
      intro bytes hbytes
      obtain h | ⟨_, _, h⟩ := hbytes
      · exact List.mem_pair.mp h
      · cases h
        exact Or.inl rfl
    have hne : bytesSha256 [1] ≠ bytesSha256 [2] := by decide +kernel
    intro a ha b hb hsame
    obtain ha | ha := honly a ha
    · obtain hb | hb := honly b hb
      · rw [ha, hb]
      · rw [ha, hb] at hsame
        exact absurd hsame hne
    · obtain hb | hb := honly b hb
      · rw [ha, hb] at hsame
        exact absurd hsame.symm hne
      · rw [ha, hb]

end ChunkStore

end Swamp
