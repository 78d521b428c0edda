import Castle.Cache
import Castle.Objects.Key

/-!
# Object values: replace and get

`castle_object_replace` stores a value under an object key in a version's doubling array (DA).
A value of at most `MAX_INLINE_VAL_SIZE` bytes is kept inline in the tree; a longer one gets
`⌈length / C_BLK_SIZE⌉` contiguous blocks from the allocator, and its bytes stream in from the
client's frames through write windows of at most `OBJ_IO_MAX_BUFFER_SIZE` (10) blocks
(`castle_object_data_write`).  `castle_object_get` streams an on-disk value back, one window of
at most 10 blocks at a time, the next window 10 blocks on (`castle_object_get_continue`).

`C_BLK_SIZE` and `MAX_INLINE_VAL_SIZE` are defined outside `src/`; they are the parameters
`blkSize` and `maxInline`.  The DA is a map from key and version to the value tuple
`castle_object_replace_cvt_get` produced, the cache the byte store of `Castle.Cache`, and the
RxRPC call the packet of the frame being read.  Reads from the cache succeed.

When the client's last frame arrives and the last window is not full, `castle_object_write_next_cdb`
places the next window after as many blocks as the *remaining* data needs, not after the window
just filled, while the read path always steps 10 blocks: a value whose last window is shorter
than 9 blocks and a byte is written over the previous window and read back from blocks it never
wrote (`replace_get_misplaces_last_window`).
-/

namespace Castle
namespace Objects

/-- A `c_val_tup_t`: invalid, a tombstone, an inline value, or an on-disk value of `length`
bytes from `cdb`. -/
inductive Cvt
  | invalid
  | tombstone
  | inline (length : Nat) (val : List UInt8)
  | ondisk (length : Nat) (cdb : Cdb)
deriving DecidableEq, Repr

/-- Modelled from the spec: the doubling array of every version, as a map from object key and
version to the value tuple stored. -/
def Da := VlOkey × Nat → Cvt

/-- The replies of a get: `castle_rxrpc_get_reply_start(call, err, length, buffer, n)` and
`castle_rxrpc_get_reply_continue(call, err, buffer, n, last)`. -/
inductive Reply
  | start (err : Int) (length : Nat) (bytes : List UInt8)
  | cont (err : Int) (bytes : List UInt8) (last : Bool)
deriving DecidableEq, Repr

/-- The bytes a reply carries. -/
def Reply.bytes : Reply → List UInt8
  | .start _ _ bytes | .cont _ bytes _ => bytes

@[simp] theorem Reply.bytes_start (err : Int) (length : Nat) (bytes : List UInt8) :
    (Reply.start err length bytes).bytes = bytes := rfl

@[simp] theorem Reply.bytes_cont (err : Int) (bytes : List UInt8) (last : Bool) :
    (Reply.cont err bytes last).bytes = bytes := rfl

/-- `OBJ_IO_MAX_BUFFER_SIZE`, in blocks. -/
def objIoMaxBufferSize : Nat := 10

/-- A `c2_block_t` as the object engine uses it: its first block and its number of pages. -/
structure C2b where
  cdb : Cdb
  nrPages : Nat
deriving DecidableEq, Repr

/-- What `castle_rxrpc_replace_call_get` and `_set` keep: the write window, the offset in it and
the number of bytes still to come. -/
structure ReplaceCall where
  dataC2b : C2b
  dataC2bOffset : Nat
  dataLength : Nat
deriving DecidableEq, Repr

/-- The padding of an XDR string of `n` bytes. -/
def xdrPad (n : Nat) : Nat := if n % 4 = 0 then 0 else 4 - n % 4

/-- Modelled from the spec: `castle_rxrpc_str_copy(call, buffer, length, partial)` takes the
next `length` bytes of the packet; a copy that is not partial ends the XDR string and also takes
its padding. -/
def strCopy (packet : List UInt8) (length : Nat) (isPartial : Bool) :
    Option (List UInt8 × List UInt8) :=
  if packet.length < length then none
  else some (packet.take length, packet.drop (if isPartial then length else length + xdrPad length))

/-- `a - b` on `uint32_t`. -/
def uint32Sub (a b : Nat) : Nat := (a + 2 ^ 32 - b) % 2 ^ 32

section

variable (blkSize : Nat)

/-- `(length - 1) / C_BLK_SIZE + 1`: the blocks that hold `length` bytes. -/
def nrBlocksFor (length : Nat) : Nat := (length - 1) / blkSize + 1

/-- The length of the write window for `data_length` bytes still to come. -/
def writeBufferLength (dataLength : Nat) : Nat :=
  if dataLength > objIoMaxBufferSize * blkSize then objIoMaxBufferSize * blkSize else dataLength

/-- `castle_object_write_next_cdb`. -/
def castleObjectWriteNextCdb (oldCdb : Cdb) (dataLength : Nat) : Cdb :=
  ⟨oldCdb.disk, oldCdb.block + nrBlocksFor blkSize (writeBufferLength blkSize dataLength)⟩

/-- `castle_object_write_buffer_alloc`: the cache block of the window at `newDataCdb`, set up to
date without a read. -/
def castleObjectWriteBufferAlloc (newDataCdb : Cdb) (dataLength : Nat) : C2b :=
  ⟨newDataCdb, nrBlocksFor blkSize (writeBufferLength blkSize dataLength)⟩

/-- `data_c2b_length`: the bytes of the window. -/
def ReplaceCall.dataC2bLength (call : ReplaceCall) : Nat := call.dataC2b.nrPages * blkSize

/-- The `copy_length` a pass of `castle_object_data_write` starts from: what is left of the window,
at most the rest of the packet. -/
def ReplaceCall.copyLength (call : ReplaceCall) (packetLength : Nat) : Nat :=
  if call.dataC2bLength blkSize - call.dataC2bOffset ≥ packetLength then packetLength
  else call.dataC2bLength blkSize - call.dataC2bOffset

/-- One pass of the `do … while` loop of `castle_object_data_write`: copy from the packet into
the window, and take the next window when this one is full and data remains.  `none` is a
`BUG_ON`. -/
def dataWriteStep (call : ReplaceCall) (st : Store) (packet : List UInt8) (packetLength : Nat) :
    Option (ReplaceCall × Store × List UInt8 × Nat) :=
  if call.dataC2bOffset ≥ call.dataC2bLength blkSize then none else
  let lastCopy := decide (call.copyLength blkSize packetLength ≥ call.dataLength)
  let copyLength := if lastCopy then call.dataLength else call.copyLength blkSize packetLength
  match strCopy packet copyLength (!lastCopy) with
  | none => none
  | some (bytes, packet) =>
    let st := st.write call.dataC2b.cdb.disk (call.dataC2b.cdb.block * blkSize + call.dataC2bOffset)
      bytes
    let dataLength := call.dataLength - copyLength
    let dataC2bOffset := call.dataC2bOffset + copyLength
    let readLength := if lastCopy then copyLength + xdrPad copyLength else copyLength
    let packetLength := uint32Sub packetLength readLength
    if dataC2bOffset = call.dataC2bLength blkSize ∧ dataLength > 0 then
      let newDataCdb := castleObjectWriteNextCdb blkSize call.dataC2b.cdb dataLength
      some (⟨castleObjectWriteBufferAlloc blkSize newDataCdb dataLength, 0, dataLength⟩, st, packet,
        packetLength)
    else some (⟨call.dataC2b, dataC2bOffset, dataLength⟩, st, packet, packetLength)

/-- The loop of `castle_object_data_write`, `while ((packet_length > 0) && (data_length > 0))`. -/
def dataWriteLoop : Nat → ReplaceCall → Store → List UInt8 → Nat → Option (ReplaceCall × Store)
  | 0, _, _, _, _ => none
  | fuel + 1, call, st, packet, packetLength =>
    (dataWriteStep blkSize call st packet packetLength).bind fun (call, st, packet, packetLength) =>
      if packetLength > 0 ∧ call.dataLength > 0 then dataWriteLoop fuel call st packet packetLength
      else some (call, st)

/-- `castle_object_data_write` on the packet of a frame: the window state after it, the store,
and whether all the data has arrived.  Each pass copies a byte at least, so `data_length + 1`
passes are enough. -/
def castleObjectDataWrite (call : ReplaceCall) (st : Store) (packet : List UInt8) :
    Option (ReplaceCall × Store × Bool) :=
  if packet.length = 0 then none else
  (dataWriteLoop blkSize (call.dataLength + 1) call st packet packet.length).map
    fun (call, st) => (call, st, call.dataLength == 0)

/-- `castle_object_replace_continue` for each further frame, the last one marked last. -/
def castleObjectReplaceContinue (call : ReplaceCall) (st : Store) : List (List UInt8) → Option Store
  | [] => none
  | packet :: frames =>
    (castleObjectDataWrite blkSize call st packet).bind fun (call, st, _) =>
      match frames with
      | [] => if call.dataLength ≠ 0 then none else some st
      | _ :: _ => castleObjectReplaceContinue call st frames

/-- `castle_object_replace_complete` with no error, after the tree took `cvt`: an on-disk value
starts its first window at `cvt.cdb` and takes the data of the first frame.  The result is the
window state if more frames are needed, and the store.  For a tombstone `complete_write` is
read uninitialised, which is `none`. -/
def castleObjectReplaceComplete (cvt : Cvt) (st : Store) (packet : List UInt8) :
    Option (Option ReplaceCall × Store) :=
  match cvt with
  | .ondisk length cdb =>
    (castleObjectDataWrite blkSize ⟨castleObjectWriteBufferAlloc blkSize cdb length, 0, length⟩ st
      packet).map fun (call, st, completeWrite) => (if completeWrite then none else some call, st)
  | .inline _ _ => some (none, st)
  | .invalid | .tombstone => none

/-- `castle_object_get_continue` from `dataCdb` with `dataLength` bytes to go, and
`__castle_object_get_complete` on its window; `first` marks the first reply.  `none` is a
`BUG_ON` or the fuel running out. -/
def castleObjectGetContinue (st : Store) : Nat → Cdb → Nat → Bool → Option (List Reply)
  | 0, _, _, _ => none
  | fuel + 1, dataCdb, dataLength, first =>
    let nrBlocks := nrBlocksFor blkSize dataLength
    let dataC2bLength :=
      if nrBlocks > objIoMaxBufferSize then objIoMaxBufferSize * blkSize else dataLength
    let dataLength := dataLength - dataC2bLength
    let buffer := st.read dataCdb.disk (dataCdb.block * blkSize) dataC2bLength
    let last := dataLength == 0
    let reply :=
      if first then Reply.start 0 (dataC2bLength + dataLength) buffer else .cont 0 buffer last
    if last then some [reply] else
    if dataC2bLength ≠ objIoMaxBufferSize * blkSize then none else
    (castleObjectGetContinue st fuel ⟨dataCdb.disk, dataCdb.block + objIoMaxBufferSize⟩ dataLength
      false).map (reply :: ·)

/-- `castle_object_get_complete` with no error, on the value found: "not found", the inline
bytes, or the on-disk value streamed window by window (each window a byte at least, so
`length + 1` windows are enough). -/
def castleObjectGetComplete (st : Store) : Cvt → Option (List Reply)
  | .invalid | .tombstone => some [.start 0 0 []]
  | .inline length val => some [.start 0 length val]
  | .ondisk length cdb => castleObjectGetContinue blkSize st (length + 1) cdb length true

/-- `castle_object_get` of `key` in `version`. -/
def castleObjectGet (da : Da) (st : Store) (key : VlOkey) (version : Nat) : Option (List Reply) :=
  castleObjectGetComplete blkSize st (da (key, version))

variable (maxInline : Nat)

/-- `castle_object_replace_cvt_get` for a put of `length` bytes or a tombstone, with the packet
after the length field and the block `castle_freespace_block_get` gives (`none` is
`INVAL_DISK_BLK`); `none` is a `BUG_ON`: of a value over 100 blocks, or of a failed allocation.
(The blocks of the previous value are freed, which the model leaves out.) -/
def castleObjectReplaceCvtGet (tombstone : Bool) (length : Nat) (packet : List UInt8)
    (blockGet : Option Cdb) : Option (Cvt × List UInt8) :=
  if tombstone then some (.tombstone, packet) else
  if length ≤ maxInline then
    (strCopy packet length false).map fun (val, packet) => (.inline length val, packet)
  else if nrBlocksFor blkSize length > 100 then none
  else blockGet.map fun cdb => (.ondisk length cdb, packet)

/-- `castle_object_replace` of `key` in `version`, for a put of `length` bytes or a tombstone,
sent in `frames` (the first frame's part after the length field, then the further frames), with
the block the allocator gives (`none`: `INVAL_DISK_BLK`): the DA and the store once the call has
completed. -/
def castleObjectReplace (da : Da) (st : Store) (key : VlOkey) (version : Nat) (tombstone : Bool)
    (length : Nat) (blockGet : Option Cdb) : List (List UInt8) → Option (Da × Store)
  | [] => none
  | packet :: frames =>
    (castleObjectReplaceCvtGet blkSize maxInline tombstone length packet blockGet).bind
      fun (cvt, packet) =>
      let da := fun kv => if kv = (key, version) then cvt else da kv
      (castleObjectReplaceComplete blkSize cvt st packet).bind fun
        | (none, st) => some (da, st)
        | (some call, st) => (castleObjectReplaceContinue blkSize call st frames).map (da, ·)

end

/-! ## Steps of the write loop -/

section steps

variable {blkSize : Nat} {call : ReplaceCall} {st : Store} {packet : List UInt8} {packetLength : Nat}

theorem nrBlocksFor_mul (hB : 0 < blkSize) {k : Nat} (hk : 0 < k) :
    nrBlocksFor blkSize (k * blkSize) = k := by
  obtain ⟨j, rfl⟩ : ∃ j, k = j + 1 := ⟨k - 1, by omega⟩
  have h : (j + 1) * blkSize - 1 = (blkSize - 1) + j * blkSize := by rw [Nat.succ_mul]; omega
  simp [nrBlocksFor, h, Nat.add_mul_div_right _ _ hB, Nat.div_eq_of_lt (Nat.sub_lt hB Nat.one_pos)]

theorem nrBlocksFor_mul_add_one (hB : 0 < blkSize) (k : Nat) :
    nrBlocksFor blkSize (k * blkSize + 1) = k + 1 := by
  simp [nrBlocksFor, Nat.mul_div_cancel _ hB]

@[simp] theorem nrBlocksFor_one : nrBlocksFor blkSize 1 = 1 := by
  simp [nrBlocksFor]

theorem lt_nrBlocksFor_iff (hB : 0 < blkSize) {m length : Nat} (hm : 0 < m) :
    m < nrBlocksFor blkSize length ↔ m * blkSize < length := by
  have := Nat.mul_pos hm hB
  rw [nrBlocksFor, Nat.lt_add_one_iff, Nat.le_div_iff_mul_le hB]
  omega

theorem le_nrBlocksFor_mul (hB : 0 < blkSize) (length : Nat) :
    length ≤ nrBlocksFor blkSize length * blkSize := by
  have := Nat.div_add_mod (length - 1) blkSize
  have := Nat.mod_lt (length - 1) hB
  rw [nrBlocksFor, Nat.succ_mul, Nat.mul_comm]
  omega

theorem writeBufferLength_of_gt {length : Nat} (h : 10 * blkSize < length) :
    writeBufferLength blkSize length = 10 * blkSize := by
  simp [writeBufferLength, objIoMaxBufferSize, h]

theorem writeBufferLength_of_le {length : Nat} (h : length ≤ 10 * blkSize) :
    writeBufferLength blkSize length = length := by
  simp [writeBufferLength, objIoMaxBufferSize, Nat.not_lt.mpr h]

theorem ReplaceCall.copyLength_eq (packetLength : Nat) :
    call.copyLength blkSize packetLength =
      min packetLength (call.dataC2bLength blkSize - call.dataC2bOffset) := by
  simp only [ReplaceCall.copyLength, min_def]

/-- A pass that is not the last copy: it copies what fits of the packet into the window, and
takes the next window when this one is full. -/
theorem dataWriteStep_of_lt (hoff : call.dataC2bOffset < call.dataC2bLength blkSize)
    (hlt : call.copyLength blkSize packetLength < call.dataLength)
    (hpk : call.copyLength blkSize packetLength ≤ packet.length) :
    dataWriteStep blkSize call st packet packetLength =
      let copyLength := call.copyLength blkSize packetLength
      let dataLength := call.dataLength - copyLength
      some (if call.dataC2bOffset + copyLength = call.dataC2bLength blkSize then
          ⟨castleObjectWriteBufferAlloc blkSize
            (castleObjectWriteNextCdb blkSize call.dataC2b.cdb dataLength) dataLength, 0, dataLength⟩
        else ⟨call.dataC2b, call.dataC2bOffset + copyLength, dataLength⟩,
        st.write call.dataC2b.cdb.disk (call.dataC2b.cdb.block * blkSize + call.dataC2bOffset)
          (packet.take copyLength),
        packet.drop copyLength, uint32Sub packetLength copyLength) := by
  have hnl : ¬ call.copyLength blkSize packetLength ≥ call.dataLength := by omega
  have hfit : ¬ packet.length < call.copyLength blkSize packetLength := by omega
  simp only [dataWriteStep, not_le.mpr hoff, if_false, hnl, decide_False, Bool.not_false,
    strCopy, hfit, if_true, Bool.false_eq_true]
  by_cases hfull : call.dataC2bOffset + call.copyLength blkSize packetLength =
    call.dataC2bLength blkSize
  · rw [if_pos ⟨hfull, by omega⟩, if_pos hfull]
  · rw [if_neg (fun h => hfull h.1), if_neg hfull]

/-- The last copy: the rest of the data fits the window and the packet. -/
theorem dataWriteStep_of_le (hoff : call.dataC2bOffset < call.dataC2bLength blkSize)
    (hle : call.dataLength ≤ call.copyLength blkSize packetLength)
    (hpk : call.dataLength ≤ packet.length) :
    dataWriteStep blkSize call st packet packetLength =
      some (⟨call.dataC2b, call.dataC2bOffset + call.dataLength, 0⟩,
        st.write call.dataC2b.cdb.disk (call.dataC2b.cdb.block * blkSize + call.dataC2bOffset)
          (packet.take call.dataLength),
        packet.drop (call.dataLength + xdrPad call.dataLength),
        uint32Sub packetLength (call.dataLength + xdrPad call.dataLength)) := by
  have hfit : ¬ packet.length < call.dataLength := by omega
  simp only [dataWriteStep, not_le.mpr hoff, if_false, hle, decide_True, if_true, Bool.not_true,
    strCopy, hfit, Bool.false_eq_true, Nat.sub_self, gt_iff_lt, Nat.lt_irrefl, and_false]

end steps

/-! ## Values whose windows land ten blocks apart

When the value fits one window, or its last window is full or longer than nine blocks, every
window `castle_object_write_next_cdb` places is ten blocks after the one before, where
`castle_object_get_continue` reads it: the write state after `n` bytes is then the `n / 10B`-th
window, `n % 10B` bytes in (`WindowAt`), and the store holds the value's first `n` bytes. -/

section windows
variable {blkSize : Nat}

/-- The lengths whose windows `castle_object_write_next_cdb` places ten blocks apart: those of
one window, and those whose last window is full or holds more than nine blocks. -/
def WindowsAligned (blkSize length : Nat) : Prop :=
  length ≤ 10 * blkSize ∨ length % (10 * blkSize) = 0 ∨ 9 * blkSize < length % (10 * blkSize)

instance (blkSize length : Nat) : Decidable (WindowsAligned blkSize length) :=
  inferInstanceAs (Decidable (_ ∨ _ ∨ _))

variable {length : Nat} {cdb : Cdb}

/-- The window state of an aligned write of a `length`-byte value from `cdb`: the `k`-th window,
ten blocks after the one before, `o` bytes into it. -/
def windowCall (blkSize length : Nat) (cdb : Cdb) (k o : Nat) : ReplaceCall :=
  ⟨⟨⟨cdb.disk, cdb.block + 10 * k⟩,
      nrBlocksFor blkSize (writeBufferLength blkSize (length - k * (10 * blkSize)))⟩,
    o, length - (k * (10 * blkSize) + o)⟩

@[simp] theorem windowCall_dataC2bOffset (k o : Nat) :
    (windowCall blkSize length cdb k o).dataC2bOffset = o := rfl

@[simp] theorem windowCall_dataLength (k o : Nat) :
    (windowCall blkSize length cdb k o).dataLength = length - (k * (10 * blkSize) + o) := rfl

/-- `call` is the window state of an aligned write of a `length`-byte value from `cdb` once its
first `n` bytes are written. -/
def WindowAt (blkSize length : Nat) (cdb : Cdb) (n : Nat) (call : ReplaceCall) : Prop :=
  ∃ k o, o < 10 * blkSize ∧ k * (10 * blkSize) + o = n ∧ call = windowCall blkSize length cdb k o

theorem WindowAt.dataLength {n : Nat} {call : ReplaceCall}
    (h : WindowAt blkSize length cdb n call) : call.dataLength = length - n := by
  obtain ⟨k, o, -, rfl, rfl⟩ := h
  rfl

/-- A window holds ten blocks while more than ten blocks' worth of the value is left, and else
at least what is left. -/
theorem windowCall_dataC2bLength (hB : 0 < blkSize) (length : Nat) (cdb : Cdb) (k o : Nat) :
    10 * blkSize < length - k * (10 * blkSize) ∧
        (windowCall blkSize length cdb k o).dataC2bLength blkSize = 10 * blkSize ∨
      length - k * (10 * blkSize) ≤ 10 * blkSize ∧
        length - k * (10 * blkSize) ≤ (windowCall blkSize length cdb k o).dataC2bLength blkSize := by
  simp only [ReplaceCall.dataC2bLength, windowCall]
  by_cases h : 10 * blkSize < length - k * (10 * blkSize)
  · exact .inl ⟨h, by rw [writeBufferLength_of_gt h, nrBlocksFor_mul hB (by decide)]⟩
  · rw [writeBufferLength_of_le (Nat.le_of_not_lt h)]
    exact .inr ⟨Nat.le_of_not_lt h, le_nrBlocksFor_mul hB _⟩

theorem windowCall_address (k o : Nat) :
    (windowCall blkSize length cdb k o).dataC2b.cdb.block * blkSize + o =
      cdb.block * blkSize + (k * (10 * blkSize) + o) := by
  simp only [windowCall]
  rw [Nat.add_mul, Nat.mul_assoc, Nat.mul_left_comm, Nat.add_assoc]

/-- When the last window is full or longer than nine blocks, every window after a full one is
ten blocks long, so `castle_object_write_next_cdb` places it ten blocks on. -/
theorem nrBlocksFor_next_window (hB : 0 < blkSize)
    (halign : WindowsAligned blkSize length)
    {k : Nat} (hk : (k + 1) * (10 * blkSize) < length) :
    nrBlocksFor blkSize (writeBufferLength blkSize (length - (k + 1) * (10 * blkSize))) = 10 := by
  by_cases h : 10 * blkSize < length - (k + 1) * (10 * blkSize)
  · rw [writeBufferLength_of_gt h, nrBlocksFor_mul hB (by decide)]
  rw [writeBufferLength_of_le (Nat.le_of_not_lt h)]
  unfold WindowsAligned at halign
  have hW : 0 < 10 * blkSize := by omega
  -- what is left after window `k` is `j` windows and the last window's `length % (10 * blkSize)`
  have hq := Nat.div_add_mod length (10 * blkSize)
  have hm := Nat.mod_lt length hW
  have hkq : k + 1 ≤ length / (10 * blkSize) := (Nat.le_div_iff_mul_le hW).mpr hk.le
  obtain ⟨j, hj⟩ : ∃ j, length / (10 * blkSize) = k + 1 + j := ⟨_, (Nat.add_sub_of_le hkq).symm⟩
  rw [hj, Nat.mul_comm, Nat.add_mul] at hq
  have hj0 : j * (10 * blkSize) = 0 ∨ 10 * blkSize ≤ j * (10 * blkSize) := by
    rcases j with _ | j
    · exact .inl (Nat.zero_mul _)
    · exact .inr (Nat.le_mul_of_pos_left _ (Nat.succ_pos j))
  have hk1 : 10 * blkSize ≤ (k + 1) * (10 * blkSize) := Nat.le_mul_of_pos_left _ (Nat.succ_pos k)
  have h9 := (lt_nrBlocksFor_iff hB (show 0 < 9 by decide)).mpr
    (show 9 * blkSize < length - (k + 1) * (10 * blkSize) by omega)
  have h10 : ¬ 10 < nrBlocksFor blkSize (length - (k + 1) * (10 * blkSize)) := fun h10 => by
    have := (lt_nrBlocksFor_iff hB (by decide)).mp h10
    omega
  omega

variable {P Z packet : List UInt8} (st : Store)

/-- One pass of the write loop of an aligned write, from the window state after `n` bytes of the
value with the packet a prefix of the rest of it (and of whatever follows): the pass copies
`c > 0` bytes of the value to their place, and either ends the value or leaves the window state
after `n + c` bytes. -/
theorem dataWriteStep_windowAt (hB : 0 < blkSize)
    (halign : WindowsAligned blkSize P.length)
    {n : Nat} {call : ReplaceCall} (hcall : WindowAt blkSize P.length cdb n call) (hn : n < P.length)
    (hpl : 0 < packet.length) (hwrap : packet.length < 2 ^ 32) (hpre : packet <+: P.drop n ++ Z) :
    ∃ c call' packet' pl', 0 < c ∧ c ≤ packet.length ∧
      dataWriteStep blkSize call (st.write cdb.disk (cdb.block * blkSize) (P.take n)) packet
          packet.length =
        some (call', st.write cdb.disk (cdb.block * blkSize) (P.take (n + c)), packet', pl') ∧
      (P.length ≤ n + c ∧ call'.dataLength = 0 ∨
        n + c < P.length ∧ WindowAt blkSize P.length cdb (n + c) call' ∧ packet' = packet.drop c ∧
          pl' = packet.length - c) := by
  obtain ⟨k, o, ho, rfl, rfl⟩ := hcall
  have hwin := windowCall_dataC2bLength hB P.length cdb k o
  have hcl := @ReplaceCall.copyLength_eq blkSize (windowCall blkSize P.length cdb k o) packet.length
  rw [windowCall_dataC2bOffset] at hcl
  have hoff : o < (windowCall blkSize P.length cdb k o).dataC2bLength blkSize := by omega
  -- the packet's bytes are the value's next ones
  have htake : ∀ c ≤ packet.length, c ≤ P.length - (k * (10 * blkSize) + o) →
      packet.take c = (P.drop (k * (10 * blkSize) + o)).take c := fun c h1 h2 => by
    rw [(hpre.take c).eq_of_length (by simp only [List.length_take, List.length_append, List.length_drop]; omega),
      List.take_append_of_le_length (by simp only [List.length_drop]; omega)]
  have hst : ∀ c ≤ packet.length, c ≤ P.length - (k * (10 * blkSize) + o) →
      (st.write cdb.disk (cdb.block * blkSize) (P.take (k * (10 * blkSize) + o))).write
          (windowCall blkSize P.length cdb k o).dataC2b.cdb.disk
          ((windowCall blkSize P.length cdb k o).dataC2b.cdb.block * blkSize + o) (packet.take c) =
        st.write cdb.disk (cdb.block * blkSize) (P.take (k * (10 * blkSize) + o + c)) :=
    fun c h1 h2 => by
      rw [windowCall_address, htake c h1 h2]
      exact Store.write_take_drop_take _ _ _ _ hn.le c
  set c := (windowCall blkSize P.length cdb k o).copyLength blkSize packet.length with hc
  have hc0 : 0 < c := by omega
  have hcpl : c ≤ packet.length := by omega
  by_cases hlast : P.length - (k * (10 * blkSize) + o) ≤ c
  · -- the last copy
    rw [dataWriteStep_of_le hoff hlast (by simp only [windowCall_dataLength]; omega)]
    simp only [windowCall_dataLength, windowCall_dataC2bOffset]
    rw [hst _ (by omega) le_rfl, List.take_of_length_le (by omega : P.length ≤ _)]
    exact ⟨c, _, _, _, hc0, hcpl, by rw [List.take_of_length_le (by omega)], .inl ⟨by omega, rfl⟩⟩
  -- a copy within the value: to the end of the packet, or of the window
  rw [dataWriteStep_of_lt hoff (by simp only [windowCall_dataLength]; omega) hcpl]
  simp only [← hc, windowCall_dataC2bOffset]
  rw [hst c hcpl (by omega)]
  refine ⟨c, _, _, _, hc0, hcpl, rfl, .inr ⟨by omega, ?_, rfl, by simp [uint32Sub]; omega⟩⟩
  split_ifs with hfull
  · -- the window is full, so it was not the last: the next one is window `k + 1`
    have hW : (windowCall blkSize P.length cdb k o).dataC2bLength blkSize = 10 * blkSize := by
      omega
    have hk1 : (k + 1) * (10 * blkSize) = k * (10 * blkSize) + o + c := by rw [Nat.succ_mul]; omega
    refine ⟨k + 1, 0, by omega, by omega, ?_⟩
    have hdl : P.length - (k * (10 * blkSize) + o) - c = P.length - (k + 1) * (10 * blkSize) := by
      omega
    have h10 := nrBlocksFor_next_window hB halign (show (k + 1) * (10 * blkSize) < P.length by omega)
    simp only [windowCall_dataLength, hdl, castleObjectWriteBufferAlloc, castleObjectWriteNextCdb, h10]
    simp [windowCall, h10, Nat.mul_succ, Nat.add_assoc]
  · exact ⟨k, o + c, by omega, by omega, by simp [windowCall]; omega⟩

/-- What is left of a packet after `c` bytes of the value is a prefix of the rest of it. -/
theorem drop_prefix_drop {n c : Nat} (h : packet <+: P.drop n ++ Z) (hc : c ≤ P.length - n)
    (hcp : c ≤ packet.length) : packet.drop c <+: P.drop (n + c) ++ Z := by
  obtain ⟨t, ht⟩ := h
  refine ⟨t, ?_⟩
  rw [← List.drop_append_of_le_length hcp, ht, List.drop_append_of_le_length (by simp; omega),
    List.drop_drop]

/-- The write loop of `castle_object_data_write` over one packet of an aligned write, from the
window state after `n` bytes: the packet's bytes of the value are written to their place, and
the value ends if the packet holds its end, or else the window state is the one after
`n + |packet|` bytes. -/
theorem dataWriteLoop_windowAt (hB : 0 < blkSize)
    (halign : WindowsAligned blkSize P.length) :
    ∀ {fuel n : Nat} {call : ReplaceCall} {packet : List UInt8},
      WindowAt blkSize P.length cdb n call → n < P.length → P.length - n < fuel →
      0 < packet.length → packet.length < 2 ^ 32 → packet <+: P.drop n ++ Z →
      ∃ call', dataWriteLoop blkSize fuel call (st.write cdb.disk (cdb.block * blkSize) (P.take n))
          packet packet.length =
        some (call', st.write cdb.disk (cdb.block * blkSize) (P.take (n + packet.length))) ∧
        (P.length ≤ n + packet.length → call'.dataLength = 0) ∧
        (n + packet.length < P.length → WindowAt blkSize P.length cdb (n + packet.length) call') := by
  intro fuel
  induction fuel with
  | zero => intros; omega
  | succ fuel ih =>
    intro n call packet hcall hn hfuel hpl hwrap hpre
    obtain ⟨c, call', packet', pl', hc0, hcpl, hstep, hres⟩ :=
      dataWriteStep_windowAt st hB halign hcall hn hpl hwrap hpre
    simp only [dataWriteLoop, hstep, Option.some_bind]
    rcases hres with ⟨hend, hdl⟩ | ⟨hmid, hcall', rfl, rfl⟩
    · -- the value ended in this pass
      rw [if_neg (by omega), List.take_of_length_le (by omega : P.length ≤ n + c),
        List.take_of_length_le (by omega : P.length ≤ n + packet.length)]
      exact ⟨call', rfl, fun _ => hdl, fun h => absurd h (by omega)⟩
    by_cases hrest : c < packet.length
    · -- the window is full and the packet goes on
      rw [if_pos ⟨by omega, by rw [hcall'.dataLength]; omega⟩]
      have hsum : n + c + (packet.length - c) = n + packet.length := by omega
      have := ih hcall' hmid (by omega) (by simp; omega) (by simp; omega)
        (drop_prefix_drop hpre (by omega) hcpl)
      rwa [List.length_drop, hsum] at this
    · -- the packet ended
      obtain rfl : c = packet.length := by omega
      rw [if_neg (by omega)]
      exact ⟨call', rfl, fun h => absurd h (by omega), fun _ => hcall'⟩

/-- `castle_object_data_write` on one packet of an aligned write. -/
theorem castleObjectDataWrite_windowAt (hB : 0 < blkSize)
    (halign : WindowsAligned blkSize P.length)
    {n : Nat} {call : ReplaceCall} (hcall : WindowAt blkSize P.length cdb n call)
    (hn : n < P.length) (hpl : 0 < packet.length) (hwrap : packet.length < 2 ^ 32)
    (hpre : packet <+: P.drop n ++ Z) :
    ∃ call', castleObjectDataWrite blkSize call (st.write cdb.disk (cdb.block * blkSize) (P.take n))
        packet =
      some (call', st.write cdb.disk (cdb.block * blkSize) (P.take (n + packet.length)),
        call'.dataLength == 0) ∧
      (P.length ≤ n + packet.length → call'.dataLength = 0) ∧
      (n + packet.length < P.length → WindowAt blkSize P.length cdb (n + packet.length) call') := by
  obtain ⟨call', hloop, hend, hmid⟩ :=
    dataWriteLoop_windowAt st hB halign hcall hn
      (show P.length - n < call.dataLength + 1 by rw [hcall.dataLength]; omega) hpl hwrap hpre
  refine ⟨call', ?_, hend, hmid⟩
  rw [castleObjectDataWrite, if_neg (by omega), hloop]
  rfl

/-- `castle_object_replace_continue` over the further frames of an aligned write, from the window
state after `n` bytes, when the frames carry the rest of the value (and whatever follows it) and
the last of them its end: the whole value ends up in place. -/
theorem castleObjectReplaceContinue_windowAt (hB : 0 < blkSize)
    (halign : WindowsAligned blkSize P.length) :
    ∀ {frames : List (List UInt8)} {n : Nat} {call : ReplaceCall},
      WindowAt blkSize P.length cdb n call → n < P.length →
      (∀ f ∈ frames, 0 < f.length ∧ f.length < 2 ^ 32) → frames.flatten = P.drop n ++ Z →
      n + frames.dropLast.flatten.length < P.length →
      castleObjectReplaceContinue blkSize call (st.write cdb.disk (cdb.block * blkSize) (P.take n))
        frames = some (st.write cdb.disk (cdb.block * blkSize) P)
  | [], n, _, _, hn, _, hflat, _ => by
    have := congrArg List.length hflat
    simp at this
    omega
  | f :: frames, n, call, hcall, hn, hpkt, hflat, hlast => by
    obtain ⟨call', hwrite, hend, hmid⟩ := castleObjectDataWrite_windowAt st hB halign hcall hn
      (hpkt f (List.mem_cons_self _ _)).1 (hpkt f (List.mem_cons_self _ _)).2 ⟨_, hflat⟩
    have hlen := congrArg List.length hflat
    simp only [List.flatten_cons, List.length_append, List.length_drop] at hlen
    simp only [castleObjectReplaceContinue, hwrite, Option.some_bind]
    cases frames with
    | nil =>
      rw [if_neg (by simp only [List.flatten_nil, List.length_nil] at hlen; omega),
        List.take_of_length_le (by simp only [List.flatten_nil, List.length_nil] at hlen; omega)]
    | cons g frames =>
      simp only [List.dropLast_cons₂, List.flatten_cons, List.length_append] at hlast
      have hrest : (g :: frames).flatten = P.drop (n + f.length) ++ Z := by
        have h : f ++ (g :: frames).flatten = P.drop n ++ Z := hflat
        rw [← List.drop_left f (g :: frames).flatten, h,
          List.drop_append_of_le_length (by simp; omega), List.drop_drop]
      exact castleObjectReplaceContinue_windowAt hB halign (hmid (by omega)) (by omega)
        (fun f' hf' => hpkt f' (List.mem_cons_of_mem _ hf')) hrest (by simpa [Nat.add_assoc] using hlast)

/-- `castle_object_get_continue` from block `b` streams back the `length` bytes stored from there,
ten blocks a window, when the fuel covers every window. -/
theorem castleObjectGetContinue_bytes (hB : 0 < blkSize) (st : Store) (disk : Nat) :
    ∀ {fuel : Nat} (b length : Nat) (first : Bool), length < fuel * (10 * blkSize) →
      ∃ replies, castleObjectGetContinue blkSize st fuel ⟨disk, b⟩ length first = some replies ∧
        (replies.map Reply.bytes).flatten = st.read disk (b * blkSize) length := by
  intro fuel
  induction fuel with
  | zero => intro _ _ _ h; simp at h
  | succ fuel ih =>
    intro b length first h
    by_cases hlong : 10 * blkSize < length
    · -- a full window, and the rest from ten blocks on
      obtain ⟨replies, hget, hbytes⟩ := ih (b + 10) (length - 10 * blkSize) false
        (by rw [Nat.succ_mul] at h; omega)
      have hnr : 10 < nrBlocksFor blkSize length := (lt_nrBlocksFor_iff hB (by decide)).mpr hlong
      have hsplit : st.read disk (b * blkSize) length = st.read disk (b * blkSize) (10 * blkSize) ++
          st.read disk ((b + 10) * blkSize) (length - 10 * blkSize) := by
        rw [Nat.add_mul, ← Store.read_add, Nat.add_sub_cancel' hlong.le]
      cases first <;>
        simp [castleObjectGetContinue, objIoMaxBufferSize, hnr, hget, hbytes, hsplit,
          show length - 10 * blkSize ≠ 0 by omega]
    · -- the last window
      have hnr : ¬ 10 < nrBlocksFor blkSize length := mt (lt_nrBlocksFor_iff hB (by decide)).mp hlong
      cases first <;> simp [castleObjectGetContinue, objIoMaxBufferSize, hnr]

/-- A put of a value that fits one window, or whose last window is full or longer than nine
blocks, sent in any frames of which the last carries its end, is streamed back by a get byte for
byte, whatever the store and the DA held and whichever valid block the allocator gave. -/
theorem replace_get_round_trip_aligned (blkSize maxInline : Nat) (hB : 0 < blkSize) (da : Da)
    (st : Store) (key : VlOkey) (version : Nat) (cdb : Cdb) (P Z : List UInt8)
    (frames : List (List UInt8)) (hinl : maxInline < P.length) (hmax : P.length ≤ 100 * blkSize)
    (halign : WindowsAligned blkSize P.length)
    (hframes : frames.flatten = P ++ Z) (hpkt : ∀ f ∈ frames, 0 < f.length ∧ f.length < 2 ^ 32)
    (hlast : frames.dropLast.flatten.length < P.length) :
    ∃ da' st' replies,
      castleObjectReplace blkSize maxInline da st key version false P.length (some cdb) frames =
        some (da', st') ∧
      castleObjectGet blkSize da' st' key version = some replies ∧
      (replies.map Reply.bytes).flatten = P := by
  obtain ⟨disk, block⟩ := cdb
  obtain _ | ⟨packet, frames⟩ := frames
  · have := congrArg List.length hframes
    simp at this
    omega
  have hcvt : castleObjectReplaceCvtGet blkSize maxInline false P.length packet (some ⟨disk, block⟩) =
      some (.ondisk P.length ⟨disk, block⟩, packet) := by
    have : ¬ 100 < nrBlocksFor blkSize P.length := mt (lt_nrBlocksFor_iff hB (by decide)).mp (by omega)
    simp [castleObjectReplaceCvtGet, Nat.not_le.mpr hinl, this]
  -- the first frame, from the first window
  have hstart : WindowAt blkSize P.length ⟨disk, block⟩ 0
      ⟨castleObjectWriteBufferAlloc blkSize ⟨disk, block⟩ P.length, 0, P.length⟩ :=
    ⟨0, 0, by omega, by simp, by simp [windowCall, castleObjectWriteBufferAlloc]⟩
  have hpkt0 := hpkt packet (List.mem_cons_self _ _)
  obtain ⟨call, hwrite, hend, hmid⟩ := castleObjectDataWrite_windowAt st hB halign hstart
    (by omega) hpkt0.1 hpkt0.2 ⟨frames.flatten, by simpa using hframes⟩
  simp only [List.take_zero, Store.write_nil, Nat.zero_add] at hwrite hend hmid
  have hput : castleObjectReplace blkSize maxInline da st key version false P.length
      (some ⟨disk, block⟩) (packet :: frames) = some (fun kv => if kv = (key, version) then
        .ondisk P.length ⟨disk, block⟩ else da kv, st.write disk (block * blkSize) P) := by
    simp only [castleObjectReplace, hcvt, Option.some_bind, castleObjectReplaceComplete, hwrite,
      Option.map_some']
    by_cases hdone : P.length ≤ packet.length
    · simp [hend hdone, List.take_of_length_le hdone]
    -- the further frames
    obtain _ | ⟨g, frames⟩ := frames
    · have := congrArg List.length hframes
      simp at this
      omega
    have hcall := hmid (by omega)
    have hrest : (g :: frames).flatten = P.drop packet.length ++ Z := by
      have h : packet ++ (g :: frames).flatten = P ++ Z := hframes
      rw [← List.drop_left packet (g :: frames).flatten, h,
        List.drop_append_of_le_length (by omega)]
    simp only [List.dropLast_cons₂, List.flatten_cons, List.length_append] at hlast
    simp only [hcall.dataLength, show P.length - packet.length ≠ 0 by omega, beq_iff_eq, if_false]
    rw [castleObjectReplaceContinue_windowAt st hB halign hcall (by omega)
      (fun f hf => hpkt f (List.mem_cons_of_mem _ hf)) hrest hlast]
    rfl
  -- the get streams the value's blocks back
  obtain ⟨replies, hget, hbytes⟩ := castleObjectGetContinue_bytes hB (st.write disk (block * blkSize) P)
    disk block P.length true (show P.length < (P.length + 1) * (10 * blkSize) from
      Nat.lt_of_lt_of_le (Nat.lt_succ_self _) (Nat.le_mul_of_pos_right _ (by omega)))
  exact ⟨_, _, replies, hput, by simp [castleObjectGet, castleObjectGetComplete, hget],
    by rw [hbytes, Store.read_write_self]⟩

/-- With blocks of 4 bytes: a 77-byte value, whose last window holds its last 37 bytes, sent in
frames of 30 and 47 bytes, the second with the three bytes of XDR padding. -/
theorem replace_get_round_trip_aligned_example :
    ∃ da' st' replies,
      castleObjectReplace 4 0 (fun _ => .invalid) (fun _ _ => 0) [] 0 false 77 (some ⟨0, 0⟩)
        [List.replicate 30 7, List.replicate 47 7 ++ [0, 0, 0]] = some (da', st') ∧
      castleObjectGet 4 da' st' [] 0 = some replies ∧
      (replies.map Reply.bytes).flatten = List.replicate 77 7 :=
  replace_get_round_trip_aligned 4 0 (by decide) _ _ _ _ _ (List.replicate 77 7) [0, 0, 0] _
    (by decide) (by decide) (by decide) rfl (by decide) (by decide)

end windows

/-! ## The replies of a get

`castle_object_get_continue` reads a window of ten blocks while more than ten blocks' worth of
the value is left, and the rest otherwise; `__castle_object_get_complete` answers with the
window's bytes, through `castle_rxrpc_get_reply_start` the first time and
`castle_rxrpc_get_reply_continue` after, and goes on ten blocks further while bytes are left. -/

section getReplies
variable {blkSize : Nat}

/-- The replies of `castle_object_get_continue` from block `b` with `length` bytes to go: one per
window, window `k` the next `min (10 * C_BLK_SIZE) (length - k * 10 * C_BLK_SIZE)` bytes from block
`b + 10 * k`. -/
theorem castleObjectGetContinue_frames (hB : 0 < blkSize) (st : Store) (disk : Nat) :
    ∀ {fuel : Nat} (b length : Nat) (first : Bool), 0 < length →
      (length - 1) / (10 * blkSize) < fuel →
      castleObjectGetContinue blkSize st fuel ⟨disk, b⟩ length first =
        some ((List.range ((length - 1) / (10 * blkSize) + 1)).map fun k =>
          if first ∧ k = 0 then
            Reply.start 0 length (st.read disk (b * blkSize) (min (10 * blkSize) length))
          else Reply.cont 0 (st.read disk ((b + 10 * k) * blkSize)
              (min (10 * blkSize) (length - k * (10 * blkSize))))
            (decide (k = (length - 1) / (10 * blkSize)))) := by
  intro fuel
  induction fuel with
  | zero => intro _ _ _ _ h; exact absurd h (Nat.not_lt_zero _)
  | succ fuel ih =>
    intro b length first hpos h
    have hW : 0 < 10 * blkSize := by omega
    by_cases hlong : 10 * blkSize < length
    · -- a full window, then the rest from ten blocks on
      have hn : (length - 1) / (10 * blkSize) = (length - 10 * blkSize - 1) / (10 * blkSize) + 1 := by
        rw [← Nat.add_div_right _ hW]; congr 1; omega
      have hget := ih (b + 10) (length - 10 * blkSize) false (by omega) (by omega)
      have hnr : 10 < nrBlocksFor blkSize length := (lt_nrBlocksFor_iff hB (by decide)).mpr hlong
      rw [hn, List.range_succ_eq_map, List.map_cons, List.map_map]
      simp only [castleObjectGetContinue, objIoMaxBufferSize, hnr, if_true, hget,
        show length - 10 * blkSize ≠ 0 by omega, beq_iff_eq, if_false, ne_eq, not_true_eq_false,
        Option.map_some']
      have hmin : min (10 * blkSize) length = 10 * blkSize := min_eq_left hlong.le
      congr 2
      · cases first <;> simp [hmin, show 10 * blkSize + (length - 10 * blkSize) = length by omega,
          show length - 10 * blkSize ≠ 0 by omega]
      · refine List.map_congr_left fun k _ => ?_
        have h1 : b + 10 * (k + 1) = b + 10 + 10 * k := by omega
        have h2 : length - (k + 1) * (10 * blkSize) = length - 10 * blkSize - k * (10 * blkSize) := by
          rw [Nat.succ_mul]; omega
        simp [h1, h2]
    · -- the last window
      have hnr : ¬ 10 < nrBlocksFor blkSize length := mt (lt_nrBlocksFor_iff hB (by decide)).mp hlong
      have hn : (length - 1) / (10 * blkSize) = 0 := Nat.div_eq_of_lt (by omega)
      rw [hn]
      cases first <;> simp [castleObjectGetContinue, objIoMaxBufferSize, hnr, List.range_succ, List.range_zero,
        min_eq_right (Nat.le_of_not_lt hlong)]

/-- A get of an on-disk value of `length > 0` bytes streams it in
`(length - 1) / (10 * C_BLK_SIZE) + 1` replies: reply `k` carries the
`min (10 * C_BLK_SIZE) (length - k * 10 * C_BLK_SIZE)` bytes from block `cdb.block + 10 * k`; the
first is a `castle_rxrpc_get_reply_start` announcing `length`, the others are
`castle_rxrpc_get_reply_continue`s, only the last of them marked last; their bytes add up to
`length`. -/
theorem get_streams_ondisk_windows (blkSize : Nat) (hB : 0 < blkSize) (st : Store) (length : Nat)
    (cdb : Cdb) (hlen : 0 < length) :
    ∃ replies, castleObjectGetComplete blkSize st (.ondisk length cdb) = some replies ∧
      replies = (List.range ((length - 1) / (10 * blkSize) + 1)).map (fun k =>
        if k = 0 then
          Reply.start 0 length (st.read cdb.disk (cdb.block * blkSize) (min (10 * blkSize) length))
        else Reply.cont 0 (st.read cdb.disk ((cdb.block + 10 * k) * blkSize)
            (min (10 * blkSize) (length - k * (10 * blkSize))))
          (decide (k = (length - 1) / (10 * blkSize)))) ∧
      (replies.map fun r => r.bytes.length).sum = length := by
  obtain ⟨disk, b⟩ := cdb
  have hfuel : (length - 1) / (10 * blkSize) < length + 1 :=
    Nat.lt_succ_of_le ((Nat.div_le_self _ _).trans (Nat.sub_le _ _))
  obtain ⟨replies, hget, hbytes⟩ := castleObjectGetContinue_bytes hB st disk b length true
    (show length < (length + 1) * (10 * blkSize) by
      have := Nat.le_mul_of_pos_right length (show 0 < 10 * blkSize by omega)
      rw [Nat.succ_mul]; omega)
  refine ⟨replies, hget, ?_, ?_⟩
  · rw [castleObjectGetContinue_frames hB st disk b length true hlen hfuel, Option.some_inj] at hget
    rw [← hget]
    simp
  · have h := congrArg List.length hbytes
    rwa [List.length_flatten, List.map_map, Store.length_read] at h

/-- A value of 25 bytes with blocks of one byte: windows of 10, 10 and 5 bytes. -/
theorem get_streams_ondisk_windows_example :
    ∃ replies, castleObjectGetComplete 1 (fun _ _ => 0) (.ondisk 25 ⟨0, 0⟩) = some replies ∧
      replies.length = 3 ∧ (replies.map fun r => r.bytes.length).sum = 25 := by
  obtain ⟨replies, h1, h2, h3⟩ :=
    get_streams_ondisk_windows 1 (by decide) (fun _ _ => 0) 25 ⟨0, 0⟩ (by decide)
  exact ⟨replies, h1, by rw [h2]; rfl, h3⟩

end getReplies

/-! ## A last window of one byte -/

/-- Modelled from the spec: a value of eleven windows' worth of zero bytes, ten blocks of them,
and then a one. -/
def tenBlocksAndOne (blkSize : Nat) : List UInt8 := List.replicate (10 * blkSize) 0 ++ [1]

/-- The write of `tenBlocksAndOne` in one frame: the first window, ten blocks at `cdb`, takes the
zeros; the remaining byte needs one block, so `castle_object_write_next_cdb` puts the second
window at `cdb.block + 1`, and the one goes to its first byte. -/
theorem castleObjectDataWrite_tenBlocksAndOne {blkSize : Nat} (hB : 0 < blkSize) (st : Store)
    (cdb : Cdb) :
    castleObjectDataWrite blkSize ⟨castleObjectWriteBufferAlloc blkSize cdb (10 * blkSize + 1), 0,
        10 * blkSize + 1⟩ st (tenBlocksAndOne blkSize) =
      some (⟨⟨⟨cdb.disk, cdb.block + 1⟩, 1⟩, 1, 0⟩,
        (st.write cdb.disk (cdb.block * blkSize) (List.replicate (10 * blkSize) 0)).write cdb.disk
          ((cdb.block + 1) * blkSize) [1], true) := by
  have h10 : nrBlocksFor blkSize (10 * blkSize) = 10 := nrBlocksFor_mul hB (by decide)
  have hwin : castleObjectWriteBufferAlloc blkSize cdb (10 * blkSize + 1) = ⟨cdb, 10⟩ := by
    rw [castleObjectWriteBufferAlloc, writeBufferLength_of_gt (by omega), h10]
  have hnext : castleObjectWriteBufferAlloc blkSize (castleObjectWriteNextCdb blkSize cdb 1) 1 =
      ⟨⟨cdb.disk, cdb.block + 1⟩, 1⟩ := by
    simp [castleObjectWriteBufferAlloc, castleObjectWriteNextCdb,
      writeBufferLength_of_le (by omega : 1 ≤ 10 * blkSize)]
  -- the first pass fills the first window and takes a one-block window at `cdb.block + 1`
  have hstep1 : dataWriteStep blkSize ⟨⟨cdb, 10⟩, 0, 10 * blkSize + 1⟩ st (tenBlocksAndOne blkSize)
      (10 * blkSize + 1) =
      some (⟨⟨⟨cdb.disk, cdb.block + 1⟩, 1⟩, 0, 1⟩,
        st.write cdb.disk (cdb.block * blkSize) (List.replicate (10 * blkSize) 0), [1], 1) := by
    have hc : ReplaceCall.copyLength blkSize ⟨⟨cdb, 10⟩, 0, 10 * blkSize + 1⟩ (10 * blkSize + 1) =
        10 * blkSize := by
      simp only [ReplaceCall.copyLength_eq, ReplaceCall.dataC2bLength]; omega
    rw [dataWriteStep_of_lt (by simp [ReplaceCall.dataC2bLength]; omega)
      (by rw [hc]; exact Nat.lt_succ_self _) (by simp [hc, tenBlocksAndOne])]
    simp only [hc, ReplaceCall.dataC2bLength, Nat.zero_add, if_pos, Nat.add_sub_cancel_left, hnext]
    simp [tenBlocksAndOne, uint32Sub]
    omega
  -- the second pass writes the last byte at the start of block `cdb.block + 1`
  have hstep2 : ∀ st1 : Store,
      dataWriteStep blkSize ⟨⟨⟨cdb.disk, cdb.block + 1⟩, 1⟩, 0, 1⟩ st1 [1] 1 =
      some (⟨⟨⟨cdb.disk, cdb.block + 1⟩, 1⟩, 1, 0⟩,
        st1.write cdb.disk ((cdb.block + 1) * blkSize) [1], [], uint32Sub 1 4) := fun st1 => by
    rw [dataWriteStep_of_le (by simp [ReplaceCall.dataC2bLength]; omega)
      (by simp [ReplaceCall.copyLength_eq, ReplaceCall.dataC2bLength]; omega) (by simp)]
    simp [xdrPad]
  have hlen : (tenBlocksAndOne blkSize).length = 10 * blkSize + 1 := by simp [tenBlocksAndOne]
  simp only [castleObjectDataWrite, hwin, hlen, Nat.add_eq_zero, Nat.one_ne_zero, and_false,
    if_false, dataWriteLoop, hstep1, Option.some_bind, hstep2]
  simp [uint32Sub]

/-- The store after the one-frame write of `tenBlocksAndOne` at `cdb`. -/
def tenBlocksAndOneStore (blkSize : Nat) (st : Store) (cdb : Cdb) : Store :=
  (st.write cdb.disk (cdb.block * blkSize) (List.replicate (10 * blkSize) 0)).write cdb.disk
    ((cdb.block + 1) * blkSize) [1]

/-- The put of `tenBlocksAndOne` in one frame completes in `castle_object_replace_complete`. -/
theorem castleObjectReplace_tenBlocksAndOne {blkSize maxInline : Nat} (hB : 0 < blkSize)
    (hinl : maxInline < 10 * blkSize + 1) (da : Da) (st : Store) (key : VlOkey) (version : Nat)
    (cdb : Cdb) :
    castleObjectReplace blkSize maxInline da st key version false (10 * blkSize + 1) (some cdb)
        [tenBlocksAndOne blkSize] =
      some (fun kv => if kv = (key, version) then .ondisk (10 * blkSize + 1) cdb else da kv,
        tenBlocksAndOneStore blkSize st cdb) := by
  have hcvt : castleObjectReplaceCvtGet blkSize maxInline false (10 * blkSize + 1)
      (tenBlocksAndOne blkSize) (some cdb) = some (.ondisk (10 * blkSize + 1) cdb, tenBlocksAndOne blkSize) := by
    simp only [castleObjectReplaceCvtGet, nrBlocksFor_mul_add_one hB 10, Bool.false_eq_true, if_false]
    rw [if_neg (by omega), if_neg (by omega)]
    rfl
  simp [castleObjectReplace, hcvt, castleObjectReplaceComplete,
    castleObjectDataWrite_tenBlocksAndOne hB st cdb, tenBlocksAndOneStore]

/-- A put of `10 * C_BLK_SIZE + 1` bytes, in one frame, and a get of it.  The first window takes
ten blocks; the last byte then goes to block `cdb.block + 1`, the second block of the first
window, since one block is what the remaining byte needs; the get reads the first window back
with that byte in it, and the last byte from block `cdb.block + 10`, which the put never
wrote.  So the get does not return the value, whatever the store held before. -/
theorem replace_get_misplaces_last_window (blkSize maxInline : Nat) (hB : 0 < blkSize)
    (hinl : maxInline < 10 * blkSize + 1) (da : Da) (st : Store) (key : VlOkey) (version : Nat)
    (cdb : Cdb) :
    ∃ da' st' replies,
      castleObjectReplace blkSize maxInline da st key version false (10 * blkSize + 1) (some cdb)
        [tenBlocksAndOne blkSize] = some (da', st') ∧
      castleObjectGet blkSize da' st' key version = some replies ∧
      (replies.map Reply.bytes).flatten[blkSize]? = some 1 ∧
      (tenBlocksAndOne blkSize)[blkSize]? = some 0 := by
  have h11 : nrBlocksFor blkSize (10 * blkSize + 1) = 11 := nrBlocksFor_mul_add_one hB 10
  -- the byte at offset `blkSize` of the first window is the one written last
  have hat : tenBlocksAndOneStore blkSize st cdb cdb.disk (cdb.block * blkSize + blkSize) = 1 := by
    rw [tenBlocksAndOneStore, ← Nat.succ_mul, Store.write_apply_of_mem _ _ _ le_rfl (by simp)]
    simp
  refine ⟨_, tenBlocksAndOneStore blkSize st cdb,
    [.start 0 (10 * blkSize + 1)
      ((tenBlocksAndOneStore blkSize st cdb).read cdb.disk (cdb.block * blkSize) (10 * blkSize)),
      .cont 0 ((tenBlocksAndOneStore blkSize st cdb).read cdb.disk ((cdb.block + 10) * blkSize) 1) true],
    castleObjectReplace_tenBlocksAndOne hB hinl da st key version cdb,
    by simp [castleObjectGet, castleObjectGetComplete, castleObjectGetContinue, h11, objIoMaxBufferSize],
    ?_, ?_⟩
  · rw [List.map_cons, List.flatten_cons, List.getElem?_append_left (by simp [Reply.bytes]; omega)]
    simp [Reply.bytes, Store.getElem?_read _ _ _ (by omega : blkSize < 10 * blkSize), hat]
  · rw [tenBlocksAndOne, List.getElem?_append_left (by simp; omega)]
    simp [hB, show blkSize < 10 * blkSize by omega]

/-- With the `C_BLK_SIZE` of 4096 bytes, an empty store and DA, key `[]` in version `0`, and the
value's blocks from block `0` of slave `0`. -/
theorem replace_get_misplaces_last_window_example :
    ∃ da' st' replies,
      castleObjectReplace 4096 0 (fun _ => .invalid) (fun _ _ => 0) [] 0 false (10 * 4096 + 1)
        (some ⟨0, 0⟩) [tenBlocksAndOne 4096] = some (da', st') ∧
      castleObjectGet 4096 da' st' [] 0 = some replies ∧
      (replies.map Reply.bytes).flatten[4096]? = some 1 ∧ (tenBlocksAndOne 4096)[4096]? = some 0 :=
  replace_get_misplaces_last_window 4096 0 (by decide) (by decide) _ _ _ _ _

/-- A put of `tenBlocksAndOne` (`10 * C_BLK_SIZE + 1` bytes, eleven blocks) in one frame.  Its
second window starts at block `cdb.block + 1`, not `cdb.block + 10`: the value's last byte, its
byte `10 * C_BLK_SIZE`, goes to the first byte of block `cdb.block + 1`, where its byte
`C_BLK_SIZE` belongs, and nothing is written from block `cdb.block + 10` on. -/
theorem replace_writes_last_byte_to_second_block (blkSize maxInline : Nat) (hB : 0 < blkSize)
    (hinl : maxInline < 10 * blkSize + 1) (da : Da) (st : Store) (key : VlOkey) (version : Nat)
    (cdb : Cdb) :
    ∃ da' st', castleObjectReplace blkSize maxInline da st key version false (10 * blkSize + 1)
        (some cdb) [tenBlocksAndOne blkSize] = some (da', st') ∧
      (∃ call, castleObjectDataWrite blkSize
          ⟨castleObjectWriteBufferAlloc blkSize cdb (10 * blkSize + 1), 0, 10 * blkSize + 1⟩ st
          (tenBlocksAndOne blkSize) = some (call, st', true) ∧
        call.dataC2b.cdb = ⟨cdb.disk, cdb.block + 1⟩) ∧
      (tenBlocksAndOne blkSize)[10 * blkSize]? = some 1 ∧
      st' cdb.disk ((cdb.block + 1) * blkSize) = 1 ∧ (tenBlocksAndOne blkSize)[blkSize]? = some 0 ∧
      ∀ a, (cdb.block + 10) * blkSize ≤ a → st' cdb.disk a = st cdb.disk a := by
  refine ⟨_, _, castleObjectReplace_tenBlocksAndOne hB hinl da st key version cdb,
    ⟨_, castleObjectDataWrite_tenBlocksAndOne hB st cdb, rfl⟩, ?_, ?_, ?_, fun a ha => ?_⟩
  · simp [tenBlocksAndOne]
  · rw [tenBlocksAndOneStore, Store.write_apply_of_mem _ _ _ le_rfl (by simp)]
    simp
  · rw [tenBlocksAndOne, List.getElem?_append_left (by simp; omega)]
    simp [hB, show blkSize < 10 * blkSize by omega]
  · have h1 : (cdb.block + 1) * blkSize + 1 ≤ (cdb.block + 10) * blkSize := by
      rw [Nat.add_mul, Nat.add_mul]; omega
    rw [tenBlocksAndOneStore, Store.write_apply_of_not_mem _ _ _ (.inr (.inr (by simp; omega))),
      Store.write_apply_of_not_mem _ _ _ (.inr (.inr (by simp; rw [Nat.add_mul] at ha; omega)))]

/-- With the `C_BLK_SIZE` of 4096 bytes, an empty store and DA, key `[]` in version `0`, and the
value's blocks from block `0` of slave `0`. -/
theorem replace_writes_last_byte_to_second_block_example :
    ∃ da' st', castleObjectReplace 4096 0 (fun _ => .invalid) (fun _ _ => 0) [] 0 false
        (10 * 4096 + 1) (some ⟨0, 0⟩) [tenBlocksAndOne 4096] = some (da', st') ∧
      (∃ call, castleObjectDataWrite 4096
          ⟨castleObjectWriteBufferAlloc 4096 ⟨0, 0⟩ (10 * 4096 + 1), 0, 10 * 4096 + 1⟩ (fun _ _ => 0)
          (tenBlocksAndOne 4096) = some (call, st', true) ∧ call.dataC2b.cdb = ⟨0, 1⟩) ∧
      (tenBlocksAndOne 4096)[10 * 4096]? = some 1 ∧ st' 0 4096 = 1 ∧
      (tenBlocksAndOne 4096)[4096]? = some 0 ∧ ∀ a, 10 * 4096 ≤ a → st' 0 a = 0 :=
  replace_writes_last_byte_to_second_block 4096 0 (by decide) (by decide) _ _ _ _ _


/-! ## Replaces that do not complete

On a tombstone `castle_object_replace_complete` sets `complete_write` on neither branch and then
reads it; and an on-disk value whose first frame carries no byte of it sends
`castle_object_data_write` into its `BUG_ON(packet_length <= 0)`. -/

/-- No tombstone replace completes: `castle_object_replace_complete` reads `complete_write`
uninitialised, for every key, version, store, DA, allocator answer and frames; and no on-disk
replace whose first frame ends at the length field completes: the data write stops at its
`BUG_ON` (or the allocation failed first). -/
theorem replace_tombstone_or_empty_first_frame_fails (blkSize maxInline : Nat) (da : Da)
    (st : Store) (key : VlOkey) (version : Nat) (blockGet : Option Cdb)
    (frames : List (List UInt8)) :
    (∀ length, castleObjectReplace blkSize maxInline da st key version true length blockGet frames =
      none) ∧
    ∀ length, maxInline < length →
      castleObjectReplace blkSize maxInline da st key version false length blockGet ([] :: frames) =
        none := by
  refine ⟨fun length => ?_, fun length hl => ?_⟩
  · cases frames <;>
      simp [castleObjectReplace, castleObjectReplaceCvtGet, castleObjectReplaceComplete]
  · by_cases h100 : nrBlocksFor blkSize length > 100 <;>
      simp [castleObjectReplace, castleObjectReplaceCvtGet, Nat.not_le.mpr hl, h100,
        castleObjectReplaceComplete, castleObjectDataWrite]

end Objects
end Castle
