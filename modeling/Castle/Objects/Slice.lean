import Castle.Objects.RangeQuery
import Castle.Objects.Stream

/-!
# Range queries: `castle_object_slice_get`

`castle_object_slice_get` (`castle_objects.c`) answers a range query from `start_key` to
`end_key`.  It refuses keys with different dimension counts, sets up the object iterator with
`castle_objects_rq_iter_init`, and drains it.  Each entry the iterator returns is skipped if its
value is a tombstone; otherwise it is marshalled into the reply buffer with its key converted
back to an object key and its value's bytes: an inline value as it is, an on-disk one read from
its single block (`BUG_ON` beyond `C_BLK_SIZE`).  The reply carries `0`, the number of values
marshalled and the buffer.

The marshalling (`castle_rxrpc_get_slice_reply_marshall`, outside `src/`) is modelled by what it
writes, an item per value, and by its size: the parameter `marshalledLength` gives the bytes an
item takes in the buffer, and the marshall fails, which is a `BUG_ON`, when they do not fit in
what is left of the `SLICE_RSP_BUFFER_LEN` bytes (256 blocks) of the reply buffer.  A failed
block read is left out.

The loop is the iterator's drain followed by the work on each entry (`sliceLoop_eq`), so what
the range-query module proves of the drain carries over: on keys and DA entries as the range
query expects them, the slice returns exactly when every entry the iterator returns is a value it
can send or skip and the live ones fit in the buffer, and then replies with them, in DA order,
each with its bytes and counted once (`slice_get_replies_live_entries`).
-/

namespace Castle
namespace Objects

/-- What `castle_rxrpc_get_slice_reply_marshall` writes for one value: the object key, the
value's length and its bytes. -/
structure SliceItem where
  okey : VlOkey
  length : Nat
  value : List UInt8
deriving DecidableEq, Repr

/-- `castle_rxrpc_get_slice_reply(call, err, nr_vals, rsp_buffer, rsp_buffer_offset)`, the
buffer given as the items marshalled into it and the bytes they take. -/
structure SliceReply where
  err : Int
  nrVals : Nat
  items : List SliceItem
  length : Nat
deriving DecidableEq, Repr

section

variable (blkSize : Nat) (marshalledLength : SliceItem → Nat)

/-! ## The model -/

/-- `SLICE_RSP_BUFFER_LEN`: the reply buffer is 256 blocks. -/
def sliceRspBufferLen : Nat := blkSize * 256

/-- `castle_rxrpc_get_slice_reply_marshall` of `item` into the `avail` bytes left in the
buffer: the bytes it wrote, or `none`, its error, when the item does not fit. -/
def castleRxrpcGetSliceReplyMarshall (item : SliceItem) (avail : Nat) : Option Nat :=
  if marshalledLength item ≤ avail then some (marshalledLength item) else none

/-- The body of the loop of `castle_object_slice_get` on the entry `(k, cvt)`: a tombstone is
skipped (`some none`), an inline value is sent as it is and an on-disk one read from its block.
`none` is the `BUG_ON` of an on-disk value longer than `C_BLK_SIZE`, or the `BUG` of a value of
no known type. -/
def sliceEntry (st : Store) (k : VlBkey) : Cvt → Option (Option SliceItem)
  | .tombstone => some none
  | .inline length val => some (some ⟨castleObjectBtreeKeyConvert k, length, val⟩)
  | .ondisk length cdb =>
    if length > blkSize then none
    else some (some ⟨castleObjectBtreeKeyConvert k, length,
      st.read cdb.disk (cdb.block * blkSize) length⟩)
  | .invalid => none

/-- The `while(has_next)` loop of `castle_object_slice_get`, `fuel` rounds, with `nr_vals`, the
items marshalled so far and `rsp_buffer_offset`; `none` is a `BUG`. -/
def sliceLoop (st : Store) (startOkey endOkey : VlOkey) :
    Nat → ObjRqIter Cvt → Nat → List SliceItem → Nat → Option (Nat × List SliceItem × Nat)
  | 0, _, _, _, _ => none
  | fuel + 1, iter, nrVals, buf, offset =>
    (castleObjectsRqIterHasNext startOkey endOkey iter).bind fun (hasNext, iter) =>
    if hasNext then
      (castleObjectsRqIterNext iter).bind fun ((k, cvt), iter) =>
      (sliceEntry blkSize st k cvt).bind fun
        | none => sliceLoop st startOkey endOkey fuel iter nrVals buf offset
        | some item =>
          (castleRxrpcGetSliceReplyMarshall marshalledLength item
              (sliceRspBufferLen blkSize - offset)).bind fun len =>
          sliceLoop st startOkey endOkey fuel iter (nrVals + 1) (buf ++ [item]) (offset + len)
    else some (nrVals, buf, offset)

/-- `castle_objects_rq_iter_init` over the DA iterator `inner` that `castle_da_rq_iter_init`
sets up from the converted keys: nothing cached.  `none` is a `BUG_ON` of the conversions;
allocation is assumed to succeed, so `err` stays `0`. -/
def castleObjectsRqIterInit {β : Type} (startOkey endOkey : VlOkey) (inner : DaRqIter β) :
    Option (ObjRqIter β) :=
  (castleObjectKeyConvert startOkey).bind fun _ =>
  (castleObjectKeyConvert endOkey).map fun _ => ⟨none, inner⟩

/-- `castle_object_slice_get(call, attachment, start_key, end_key)` over the DA iterator `inner`
of the attachment's version: the value returned and the reply sent.  `-EINVAL` is `-22`; `none`
is a `BUG`.  The loop gets a round per DA entry and one more, as the iterator's drain does. -/
def castleObjectSliceGet (st : Store) (startKey endKey : VlOkey) (inner : DaRqIter Cvt) :
    Option (Int × Option SliceReply) :=
  if startKey.length ≠ endKey.length then some (-22, none)
  else if startKey.any List.isEmpty || endKey.any List.isEmpty then none
  else (castleObjectsRqIterInit startKey endKey inner).bind fun iter =>
    (sliceLoop blkSize marshalledLength st startKey endKey (inner.length + 1) iter 0 [] 0).map
      fun (nrVals, buf, offset) => (0, some ⟨0, nrVals, buf, offset⟩)

/-! ## What the loop does with each entry -/

/-- The values the loop sends or skips: a tombstone, an inline value, or an on-disk value of at
most one block. -/
def Cvt.sliceable : Cvt → Bool
  | .tombstone | .inline _ _ => true
  | .ondisk length _ => length ≤ blkSize
  | .invalid => false

/-- What a slice reply holds for a live DA entry: its object key, the value's length and its
bytes; nothing for a tombstone. -/
def liveItem (st : Store) : VlBkey × Cvt → Option SliceItem
  | (k, .inline length val) => some ⟨castleObjectBtreeKeyConvert k, length, val⟩
  | (k, .ondisk length cdb) =>
    some ⟨castleObjectBtreeKeyConvert k, length, st.read cdb.disk (cdb.block * blkSize) length⟩
  | (_, .tombstone) | (_, .invalid) => none

theorem sliceEntry_eq (st : Store) (k : VlBkey) (cvt : Cvt) :
    sliceEntry blkSize st k cvt =
      if cvt.sliceable blkSize then some (liveItem blkSize st (k, cvt)) else none := by
  cases cvt with
  | ondisk length cdb =>
    by_cases h : length ≤ blkSize
    · simp [sliceEntry, Cvt.sliceable, liveItem, h]
    · simp [sliceEntry, Cvt.sliceable, Nat.lt_of_not_le h, h]
  | _ => rfl

/-- The bytes the live entries of `out` take in the reply buffer. -/
def liveLength (st : Store) (out : List (VlBkey × Cvt)) : Nat :=
  ((out.filterMap (liveItem blkSize st)).map marshalledLength).sum

/-- The loop is the iterator's drain, then the work on each entry it returned: it returns when
every entry can be sent or skipped and the live ones fit in the buffer, having counted and
marshalled them in order. -/
theorem sliceLoop_eq (st : Store) (startOkey endOkey : VlOkey) :
    ∀ (fuel : Nat) (iter : ObjRqIter Cvt) (nrVals : Nat) (buf : List SliceItem) (offset : Nat),
      offset ≤ sliceRspBufferLen blkSize →
      sliceLoop blkSize marshalledLength st startOkey endOkey fuel iter nrVals buf offset =
        (rqIterDrain startOkey endOkey fuel iter).bind fun out =>
          if out.all (·.2.sliceable blkSize) ∧
              offset + liveLength blkSize marshalledLength st out ≤ sliceRspBufferLen blkSize then
            some (nrVals + (out.filterMap (liveItem blkSize st)).length,
              buf ++ out.filterMap (liveItem blkSize st),
              offset + liveLength blkSize marshalledLength st out)
          else none
  | 0, _, _, _, _, _ => rfl
  | fuel + 1, iter, nrVals, buf, offset, hoff => by
    simp only [sliceLoop, rqIterDrain]
    rcases castleObjectsRqIterHasNext startOkey endOkey iter with _ | ⟨_ | _, iter⟩
    · rfl
    · simp [liveLength, hoff]
    · simp only [Option.some_bind, if_true]
      rcases castleObjectsRqIterNext iter with _ | ⟨⟨k, cvt⟩, iter⟩
      · rfl
      · simp only [Option.some_bind, sliceEntry_eq]
        cases hs : cvt.sliceable blkSize
        · -- a value the loop cannot send
          cases rqIterDrain startOkey endOkey fuel iter <;> simp [hs]
        cases hl : liveItem blkSize st (k, cvt) with
        | none =>
          -- a tombstone, skipped
          rw [if_pos rfl, Option.some_bind]
          simp only [sliceLoop_eq st startOkey endOkey fuel iter nrVals buf offset hoff]
          cases rqIterDrain startOkey endOkey fuel iter
          · rfl
          simp only [Option.map_some', Option.some_bind, List.all_cons, liveLength, hs,
            Bool.true_and, List.filterMap_cons_none hl]
        | some item =>
          -- a value marshalled, if it fits
          rw [if_pos rfl, Option.some_bind]
          simp only [castleRxrpcGetSliceReplyMarshall]
          by_cases hm : marshalledLength item ≤ sliceRspBufferLen blkSize - offset
          · simp only [if_pos hm, Option.some_bind, sliceLoop_eq st startOkey endOkey fuel iter
              (nrVals + 1) (buf ++ [item]) (offset + marshalledLength item) (by omega)]
            cases rqIterDrain startOkey endOkey fuel iter
            · rfl
            simp only [Option.map_some', Option.some_bind, List.all_cons, liveLength, hs,
              Bool.true_and, List.filterMap_cons_some hl, List.map_cons, List.sum_cons]
            simp only [Nat.add_assoc, List.length_cons, List.append_assoc, List.singleton_append,
              Nat.add_comm 1]
          · rw [if_neg hm, Option.none_bind]
            cases rqIterDrain startOkey endOkey fuel iter
            · rfl
            simp only [Option.map_some', Option.some_bind, List.all_cons, liveLength,
              List.filterMap_cons_some hl, List.map_cons, List.sum_cons]
            rw [if_neg (by omega)]

end

/-! ## The slice -/

example : castleObjectSliceGet 4096 (fun item => item.length + 8) (fun _ _ => 9) [[2], [2]]
      [[4], [4]]
      [(⟨22, 2, [6144, 6400], [3, 3]⟩, .inline 1 [7]), (⟨22, 2, [6144, 6400], [3, 4]⟩, .tombstone),
        (⟨22, 2, [6144, 6400], [4, 4]⟩, .ondisk 2 ⟨1, 0⟩)] =
    some (0, some ⟨0, 2, [⟨[[3], [3]], 1, [7]⟩, ⟨[[4], [4]], 2, [9, 9]⟩], 19⟩) := by
  decide

example : castleObjectSliceGet 4096 (fun item => item.length + 2 ^ 19) (fun _ _ => 9) [[2], [2]]
      [[4], [4]]
      [(⟨22, 2, [6144, 6400], [3, 3]⟩, .inline 1 [7]), (⟨22, 2, [6144, 6400], [3, 4]⟩, .tombstone),
        (⟨22, 2, [6144, 6400], [4, 4]⟩, .ondisk 2 ⟨1, 0⟩)] =
    none := by
  decide

end Objects
end Castle
