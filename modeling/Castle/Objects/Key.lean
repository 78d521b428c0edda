import Mathlib

/-!
# Object keys and their B-tree encoding

`castle_objects.c` stores a multi-dimensional object key (`c_vl_okey_t`, a list
of length-prefixed byte strings) in the B-tree as one variable-length key
(`c_vl_bkey_t`).  The B-tree key is a 16-byte header (`length`, the number of
bytes after the length field, and `nr_dims`), then one packed 32-bit dim head
per dimension, then the dimensions' bytes.  A dim head holds the byte offset of
its dimension from the start of the key in its top 24 bits and eight flag bits
in its bottom byte; a dimension ends where the next one starts, the last one at
`length + 4`.

We keep the header fields and the dim heads as numbers and the bytes after the
dim-head array as a list, so that a dimension at offset `off` starts at
`off - (16 + 4 * nr_dims)` in that list.  `WellFormed` says that a value is the
image of a key of `length + 4` bytes whose offsets increase from the end of the
dim-head array up to `length + 4`.

Main results: `castleObjectBtreeKeyConvert_keyConvert` (decoding an encoded
object key gives it back when its encoding fits the 24-bit offset field) and
`castleObjectBtreeKeyConstruct_spec` (the skip-key construction is well formed,
keeps the source key's leading dimensions and flags and appends the object
key's trailing dimensions with flags `0`, when the result fits).
-/

namespace Castle
namespace Objects

/-- An object key: its dimensions, each a byte string (`nr_dims` is the list's length). -/
abbrev VlOkey := List (List UInt8)

/-! ## Dim heads -/

/-- `KEY_DIMENSION_NEXT_FLAG`. -/
def keyDimensionNextFlag : Nat := 1 <<< 0

/-- `KEY_DIMENSION_FLAGS_SHIFT`. -/
def keyDimensionFlagsShift : Nat := 8

/-- `KEY_DIMENSION_FLAGS_MASK`. -/
def keyDimensionFlagsMask : Nat := (1 <<< keyDimensionFlagsShift) - 1

/-- `KEY_DIMENSION_FLAGS(dim_head)`. -/
def keyDimensionFlags (dimHead : Nat) : Nat := dimHead &&& keyDimensionFlagsMask

/-- `KEY_DIMENSION_OFFSET(dim_head)`. -/
def keyDimensionOffset (dimHead : Nat) : Nat := dimHead >>> keyDimensionFlagsShift

/-- `KEY_DIMENSION_HEADER(off, flags)`, stored into a `uint32_t` dim head. -/
def keyDimensionHeader (off flags : Nat) : Nat :=
  ((off <<< keyDimensionFlagsShift) ||| (flags &&& keyDimensionFlagsMask)) % 2 ^ 32

theorem keyDimensionHeader_eq (off flags : Nat) :
    keyDimensionHeader off flags = off % 2 ^ 24 * 256 + flags % 256 := by
  have hmask : keyDimensionFlagsMask = 2 ^ 8 - 1 := rfl
  have hlt : flags % 2 ^ 8 < 2 ^ 8 := Nat.mod_lt _ (Nat.two_pow_pos 8)
  rw [keyDimensionHeader, hmask, keyDimensionFlagsShift, Nat.shiftLeft_eq,
    Nat.and_pow_two_sub_one_eq_mod, Nat.mul_comm, ← Nat.mul_add_lt_is_or hlt]
  omega

@[simp] theorem keyDimensionOffset_header (off flags : Nat) :
    keyDimensionOffset (keyDimensionHeader off flags) = off % 2 ^ 24 := by
  rw [keyDimensionOffset, keyDimensionFlagsShift, Nat.shiftRight_eq_div_pow,
    keyDimensionHeader_eq]
  omega

@[simp] theorem keyDimensionFlags_header (off flags : Nat) :
    keyDimensionFlags (keyDimensionHeader off flags) = flags % 256 := by
  have hmask : keyDimensionFlagsMask = 2 ^ 8 - 1 := rfl
  rw [keyDimensionFlags, hmask, Nat.and_pow_two_sub_one_eq_mod, keyDimensionHeader_eq]
  omega

/-! ## B-tree keys -/

/-- A `c_vl_bkey_t`: header fields, the `nr_dims` dim heads, and the bytes after them. -/
structure VlBkey where
  length : Nat
  nrDims : Nat
  dimHead : List Nat
  payload : List UInt8
  deriving DecidableEq, Repr

/-- Modelled from the spec: `sizeof(c_vl_bkey_t)`, declared outside `src/`; the spec gives
the encoded header as `16 + 4·N` bytes. -/
def vlBkeyHeaderSize : Nat := 16

namespace VlBkey

/-- Where the dimension bytes start: `sizeof(c_vl_bkey_t) + 4 * nr_dims`. -/
def payloadOffset (key : VlBkey) : Nat := vlBkeyHeaderSize + 4 * key.nrDims

/-- The offset stored in dimension `dim`'s head. -/
def offsetAt (key : VlBkey) (dim : Nat) : Nat := keyDimensionOffset (key.dimHead.getD dim 0)

/-- Where dimension `dim` ends: the next dimension's offset, or `length + 4` for the last. -/
def endOffsetAt (key : VlBkey) (dim : Nat) : Nat :=
  if dim + 1 < key.nrDims then key.offsetAt (dim + 1) else key.length + 4

/-- The key is the image of `length + 4` bytes of memory whose dimensions follow each other
from the end of the dim-head array to the end of the key. -/
structure WellFormed (key : VlBkey) : Prop where
  dimHead_length : key.dimHead.length = key.nrDims
  payload_length : key.payloadOffset + key.payload.length = key.length + 4
  first : 0 < key.nrDims → key.payloadOffset ≤ key.offsetAt 0
  step : ∀ dim, dim < key.nrDims → key.offsetAt dim ≤ key.endOffsetAt dim
  /-- The dim heads are `uint32_t`. -/
  dimHead_lt : ∀ h ∈ key.dimHead, h < 2 ^ 32

instance (key : VlBkey) : Decidable key.WellFormed :=
  decidable_of_iff (key.dimHead.length = key.nrDims ∧
      key.payloadOffset + key.payload.length = key.length + 4 ∧
      (0 < key.nrDims → key.payloadOffset ≤ key.offsetAt 0) ∧
      (∀ dim, dim < key.nrDims → key.offsetAt dim ≤ key.endOffsetAt dim) ∧
      ∀ h ∈ key.dimHead, h < 2 ^ 32)
    ⟨fun ⟨a, b, c, d, e⟩ => ⟨a, b, c, d, e⟩, fun ⟨a, b, c, d, e⟩ => ⟨a, b, c, d, e⟩⟩

end VlBkey

/-- `castle_object_btree_key_dim_length`.  The code subtracts in `uint32_t`; on the keys the
code builds the end offset is never below the start, where this is the same number. -/
def castleObjectBtreeKeyDimLength (key : VlBkey) (dim : Nat) : Nat :=
  key.endOffsetAt dim - key.offsetAt dim

/-- `castle_object_btree_key_dim_get`: the key's memory from dimension `dim`'s offset on.
Callers read `castle_object_btree_key_dim_length` bytes of it. -/
def castleObjectBtreeKeyDimGet (key : VlBkey) (dim : Nat) : List UInt8 :=
  key.payload.drop (key.offsetAt dim - key.payloadOffset)

/-- `castle_object_btree_key_dim_flags_get`. -/
def castleObjectBtreeKeyDimFlagsGet (key : VlBkey) (dim : Nat) : Nat :=
  keyDimensionFlags (key.dimHead.getD dim 0)

/-- The bytes of dimension `dim`, as `castle_object_btree_key_convert` copies them out. -/
def VlBkey.dimBytes (key : VlBkey) (dim : Nat) : List UInt8 :=
  (castleObjectBtreeKeyDimGet key dim).take (castleObjectBtreeKeyDimLength key dim)

/-! ## Construction and conversion -/

/-- The dim heads `castle_object_btree_key_construct`'s loop writes for the object-key
dimensions `dims`, the first at payload offset `off`. -/
def constructDimHeads : Nat → List (List UInt8) → List Nat
  | _, [] => []
  | off, dim :: dims => keyDimensionHeader off 0 :: constructDimHeads (off + dim.length) dims

/-- The key `castle_object_btree_key_construct` writes: `heads` and `copied` taken over from the
source key, then the dimensions `rest` written from offset `firstOffset` with flags `0`. -/
def constructKey (nrDims firstOffset : Nat) (heads : List Nat) (copied : List UInt8)
    (rest : VlOkey) : VlBkey :=
  { length := firstOffset + (rest.map List.length).sum - 4, nrDims,
    dimHead := heads ++ constructDimHeads firstOffset rest,
    payload := copied ++ rest.flatten }

/-- `castle_object_btree_key_construct(src_bkey, src_okey, okey_first_dim)`: dimensions below
`okey_first_dim` are copied from `src_bkey` (header, dim heads and payload prefix, one
`memcpy`), the others are written from `src_okey`.  `none` is a `BUG_ON`.  The closing
`BUG_ON(payload_offset != key_len)` compares two equal sums and is left out; allocation is
assumed to succeed. -/
def castleObjectBtreeKeyConstruct (srcBkey : Option VlBkey) (srcOkey : VlOkey)
    (okeyFirstDim : Nat) : Option VlBkey :=
  if srcOkey.length ≤ okeyFirstDim then none else
  match srcBkey with
  | none =>
    if 0 < okeyFirstDim then none else
    some (constructKey srcOkey.length (vlBkeyHeaderSize + 4 * srcOkey.length) [] [] srcOkey)
  | some src =>
    if okeyFirstDim = 0 ∨ src.nrDims ≠ srcOkey.length then none else
    let firstOkeyOffset := src.offsetAt okeyFirstDim
    some (constructKey srcOkey.length firstOkeyOffset (src.dimHead.take okeyFirstDim)
      (src.payload.take (firstOkeyOffset - src.payloadOffset)) (srcOkey.drop okeyFirstDim))

/-- `castle_object_key_convert`: an object key's B-tree key. -/
def castleObjectKeyConvert (objKey : VlOkey) : Option VlBkey :=
  castleObjectBtreeKeyConstruct none objKey 0

/-- `castle_object_btree_key_convert`: a B-tree key's object key (allocation assumed to
succeed). -/
def castleObjectBtreeKeyConvert (btreeKey : VlBkey) : VlOkey :=
  (List.range btreeKey.nrDims).map btreeKey.dimBytes

@[simp] theorem castleObjectBtreeKeyConvert_length (key : VlBkey) :
    (castleObjectBtreeKeyConvert key).length = key.nrDims := by
  simp [castleObjectBtreeKeyConvert]

@[simp] theorem castleObjectBtreeKeyConvert_getElem (key : VlBkey) (i : Nat)
    (h : i < (castleObjectBtreeKeyConvert key).length) :
    (castleObjectBtreeKeyConvert key)[i] = key.dimBytes i := by
  simp [castleObjectBtreeKeyConvert]

theorem castleObjectBtreeKeyConvert_getElem? (key : VlBkey) {i : Nat} (hi : i < key.nrDims) :
    (castleObjectBtreeKeyConvert key)[i]? = some (key.dimBytes i) := by
  simp [castleObjectBtreeKeyConvert, List.getElem?_range hi]

/-- The length of an object key's encoding: header, dim heads and every dimension's bytes. -/
def encodedLength (objKey : VlOkey) : Nat :=
  vlBkeyHeaderSize + 4 * objKey.length + (objKey.map List.length).sum

/-! ## Consequences of well-formedness -/

namespace VlBkey.WellFormed

variable {key : VlBkey}

theorem offsetAt_le_succ (hk : key.WellFormed) {i : Nat} (h : i + 1 < key.nrDims) :
    key.offsetAt i ≤ key.offsetAt (i + 1) := by
  simpa [VlBkey.endOffsetAt, h] using hk.step i (by omega)

theorem offsetAt_mono (hk : key.WellFormed) {i j : Nat} (hij : i ≤ j) (hj : j < key.nrDims) :
    key.offsetAt i ≤ key.offsetAt j := by
  induction j, hij using Nat.le_induction with
  | base => exact le_rfl
  | succ j _ ih => exact (ih (by omega)).trans (hk.offsetAt_le_succ hj)

theorem payloadOffset_le (hk : key.WellFormed) {i : Nat} (hi : i < key.nrDims) :
    key.payloadOffset ≤ key.offsetAt i :=
  (hk.first (by omega)).trans (hk.offsetAt_mono (Nat.zero_le i) hi)

theorem endOffsetAt_le (hk : key.WellFormed) {i j : Nat} (hij : i < j) (hj : j < key.nrDims) :
    key.endOffsetAt i ≤ key.offsetAt j := by
  rw [VlBkey.endOffsetAt, if_pos (by omega)]
  exact hk.offsetAt_mono hij hj

theorem offsetAt_le_length (hk : key.WellFormed) {i : Nat} (hi : i < key.nrDims) :
    key.offsetAt i ≤ key.length + 4 := by
  have hlast := hk.step (key.nrDims - 1) (by omega)
  rw [VlBkey.endOffsetAt, if_neg (by omega)] at hlast
  exact (hk.offsetAt_mono (by omega) (by omega)).trans hlast

end VlBkey.WellFormed

/-! ## Where the written dimensions land -/

/-- The bytes taken by the first `i` dimensions of `dims`. -/
def prefixLength (dims : VlOkey) (i : Nat) : Nat := ((dims.take i).map List.length).sum

theorem prefixLength_succ {dims : VlOkey} {i : Nat} (h : i < dims.length) :
    prefixLength dims (i + 1) = prefixLength dims i + dims[i].length := by
  simp only [prefixLength, List.take_succ, List.getElem?_eq_getElem h, Option.toList,
    List.map_append, List.sum_append]
  simp

theorem prefixLength_le (dims : VlOkey) (i : Nat) :
    prefixLength dims i ≤ (dims.map List.length).sum := by
  induction dims generalizing i with
  | nil => simp [prefixLength]
  | cons dim dims ih =>
    cases i with
    | zero => simp [prefixLength]
    | succ i => simpa [prefixLength] using ih i

theorem prefixLength_add_le {dims : VlOkey} {i : Nat} (h : i < dims.length) :
    prefixLength dims i + dims[i].length ≤ (dims.map List.length).sum := by
  rw [← prefixLength_succ h]
  exact prefixLength_le dims (i + 1)

theorem prefixLength_length (dims : VlOkey) :
    prefixLength dims dims.length = (dims.map List.length).sum := by
  simp [prefixLength]

theorem drop_prefixLength_flatten (dims : VlOkey) (i : Nat) :
    dims.flatten.drop (prefixLength dims i) = (dims.drop i).flatten := by
  induction dims generalizing i with
  | nil => simp [prefixLength]
  | cons dim dims ih =>
    cases i with
    | zero => simp [prefixLength]
    | succ i =>
      simpa [prefixLength, List.drop_append] using ih i

/-- Dimension `i` of `dims` sits in `dims.flatten` right after the first `i` dimensions. -/
theorem flatten_slice {dims : VlOkey} {i : Nat} (h : i < dims.length) :
    (dims.flatten.drop (prefixLength dims i)).take dims[i].length = dims[i] := by
  rw [drop_prefixLength_flatten, List.drop_eq_getElem_cons h, List.flatten_cons]
  exact List.take_left' rfl

theorem constructDimHeads_length (off : Nat) (dims : VlOkey) :
    (constructDimHeads off dims).length = dims.length := by
  induction dims generalizing off with
  | nil => rfl
  | cons dim dims ih => simp [constructDimHeads, ih]

theorem constructDimHeads_getElem? {off : Nat} {dims : VlOkey} {i : Nat} (h : i < dims.length) :
    (constructDimHeads off dims)[i]? = some (keyDimensionHeader (off + prefixLength dims i) 0) := by
  induction dims generalizing off i with
  | nil => simp at h
  | cons dim dims ih =>
    cases i with
    | zero => simp [constructDimHeads, prefixLength]
    | succ i =>
      rw [constructDimHeads, List.getElem?_cons_succ, ih (by simpa using h)]
      simp [prefixLength, Nat.add_assoc]

theorem constructDimHeads_lt {off : Nat} {dims : VlOkey} :
    ∀ h ∈ constructDimHeads off dims, h < 2 ^ 32 := by
  induction dims generalizing off with
  | nil => simp [constructDimHeads]
  | cons dim dims ih =>
    simp only [constructDimHeads, List.mem_cons, forall_eq_or_imp]
    exact ⟨Nat.mod_lt _ (Nat.two_pow_pos 32), ih⟩

/-- Reading a window of a copied prefix reads the source, when the window lies in the prefix. -/
theorem take_drop_take_append {l m : List UInt8} {n a b : Nat} (hab : a + b ≤ n)
    (hn : n ≤ l.length) : ((l.take n ++ m).drop a).take b = (l.drop a).take b := by
  rw [List.drop_append_of_le_length (by simp; omega),
    List.take_append_of_le_length (by simp; omega), List.drop_take, List.take_take]
  congr 1
  omega

section constructKey

variable {nrDims base : Nat} {heads : List Nat} {copied : List UInt8} {rest : VlOkey}

/-- The offsets the construction loop writes wrap around at `2 ^ 24`, the width of the offset
field. -/
theorem constructKey_offsetAt_rest_mod {i : Nat} (hlo : heads.length ≤ i)
    (hhi : i < heads.length + rest.length) :
    (constructKey nrDims base heads copied rest).offsetAt i =
      (base + prefixLength rest (i - heads.length)) % 2 ^ 24 := by
  simp only [VlBkey.offsetAt, constructKey, List.getD_eq_getElem?_getD,
    List.getElem?_append_right hlo, constructDimHeads_getElem? (show i - heads.length < rest.length by omega),
    Option.getD_some, keyDimensionOffset_header]

theorem constructKey_offsetAt_rest (hfit : base + (rest.map List.length).sum < 2 ^ 24)
    {i : Nat} (hlo : heads.length ≤ i) (hhi : i < heads.length + rest.length) :
    (constructKey nrDims base heads copied rest).offsetAt i =
      base + prefixLength rest (i - heads.length) := by
  have hpre := prefixLength_le rest (i - heads.length)
  rw [constructKey_offsetAt_rest_mod hlo hhi]
  exact Nat.mod_eq_of_lt (by omega)

theorem constructKey_offsetAt_heads {i : Nat} (hi : i < heads.length) :
    (constructKey nrDims base heads copied rest).offsetAt i = keyDimensionOffset (heads.getD i 0) := by
  simp [VlBkey.offsetAt, constructKey, List.getElem?_append_left hi]

theorem constructKey_endOffsetAt_rest (hN : heads.length + rest.length = nrDims)
    (hbase : 4 ≤ base) (hfit : base + (rest.map List.length).sum < 2 ^ 24)
    {i : Nat} (hlo : heads.length ≤ i) (hhi : i < nrDims) :
    (constructKey nrDims base heads copied rest).endOffsetAt i =
      base + prefixLength rest (i - heads.length) + (rest.get ⟨i - heads.length, by omega⟩).length := by
  rw [List.get_eq_getElem]
  have hsucc := prefixLength_succ (show i - heads.length < rest.length by omega)
  unfold VlBkey.endOffsetAt
  split
  · rename_i h
    simp only [constructKey_offsetAt_rest hfit (show heads.length ≤ i + 1 by omega)
      (show i + 1 < heads.length + rest.length by simp [constructKey] at h; omega),
      show i + 1 - heads.length = i - heads.length + 1 by omega, hsucc, Nat.add_assoc]
  · rename_i h
    have hlast : i - heads.length + 1 = rest.length := by simp [constructKey] at h; omega
    rw [Nat.add_assoc, ← hsucc, hlast, prefixLength_length]
    simp [constructKey]
    omega

theorem constructKey_dimBytes_rest (hN : heads.length + rest.length = nrDims)
    (hcopied : vlBkeyHeaderSize + 4 * nrDims + copied.length = base)
    (hfit : base + (rest.map List.length).sum < 2 ^ 24)
    {i : Nat} (hlo : heads.length ≤ i) (hhi : i < nrDims) :
    (constructKey nrDims base heads copied rest).dimBytes i = rest.get ⟨i - heads.length, by omega⟩ := by
  rw [List.get_eq_getElem]
  have hbase : 4 ≤ base := by simp [vlBkeyHeaderSize] at hcopied; omega
  simp only [VlBkey.dimBytes, castleObjectBtreeKeyDimLength, castleObjectBtreeKeyDimGet,
    constructKey_endOffsetAt_rest hN hbase hfit hlo hhi,
    constructKey_offsetAt_rest hfit hlo (show i < heads.length + rest.length by omega)]
  simp only [VlBkey.payloadOffset, constructKey]
  simp only [show base + prefixLength rest (i - heads.length) - (vlBkeyHeaderSize + 4 * nrDims)
      = copied.length + prefixLength rest (i - heads.length) by omega, List.drop_append,
    Nat.add_sub_cancel_left]
  exact flatten_slice _

theorem constructKey_flags_rest {i : Nat} (hlo : heads.length ≤ i)
    (hhi : i < heads.length + rest.length) :
    castleObjectBtreeKeyDimFlagsGet (constructKey nrDims base heads copied rest) i = 0 := by
  simp [castleObjectBtreeKeyDimFlagsGet, constructKey, List.getElem?_append_right hlo,
    constructDimHeads_getElem? (show i - heads.length < rest.length by omega)]

theorem constructKey_flags_heads {i : Nat} (hi : i < heads.length) :
    castleObjectBtreeKeyDimFlagsGet (constructKey nrDims base heads copied rest) i =
      keyDimensionFlags (heads.getD i 0) := by
  simp [castleObjectBtreeKeyDimFlagsGet, constructKey, List.getElem?_append_left hi]

end constructKey

/-! ## Encoding and decoding -/

theorem castleObjectKeyConvert_eq {objKey : VlOkey} (h : objKey ≠ []) :
    castleObjectKeyConvert objKey = some (constructKey objKey.length
      (vlBkeyHeaderSize + 4 * objKey.length) [] [] objKey) := by
  have : 0 < objKey.length := List.length_pos.mpr h
  simp [castleObjectKeyConvert, castleObjectBtreeKeyConstruct, Nat.not_le.mpr this]

/-- An object key's encoding is well formed when it fits the 24-bit offset field. -/
theorem castleObjectKeyConvert_wellFormed {objKey : VlOkey} (h : objKey ≠ [])
    (hfit : encodedLength objKey < 2 ^ 24) :
    ∃ key, castleObjectKeyConvert objKey = some key ∧ key.WellFormed := by
  have hpos : 0 < objKey.length := List.length_pos.mpr h
  refine ⟨_, castleObjectKeyConvert_eq h, ⟨by simp [constructKey, constructDimHeads_length],
    by simp [constructKey, VlBkey.payloadOffset, vlBkeyHeaderSize]; omega, fun _ => ?_,
    fun i hi => ?_, by simpa [constructKey] using constructDimHeads_lt⟩⟩
  · rw [constructKey_offsetAt_rest hfit (Nat.zero_le 0) (by simpa using hpos)]
    simp [prefixLength, VlBkey.payloadOffset, constructKey]
  · simp only [constructKey] at hi
    rw [constructKey_offsetAt_rest hfit (Nat.zero_le i) (by simpa using hi),
      constructKey_endOffsetAt_rest (by simp) (by simp [vlBkeyHeaderSize]; omega) hfit
        (Nat.zero_le i) (by simpa [constructKey] using hi)]
    omega

/-- Decoding an encoded object key gives it back, when the encoding fits the 24-bit offset
field. -/
theorem castleObjectBtreeKeyConvert_keyConvert {objKey : VlOkey} (h : objKey ≠ [])
    (hfit : encodedLength objKey < 2 ^ 24) :
    (castleObjectKeyConvert objKey).map castleObjectBtreeKeyConvert = some objKey := by
  rw [castleObjectKeyConvert_eq h, Option.map_some', Option.some_inj]
  refine List.ext_getElem (by simp [castleObjectBtreeKeyConvert, constructKey]) fun i hi _ => ?_
  simp only [castleObjectBtreeKeyConvert, constructKey, List.length_map, List.length_range] at hi
  simp only [castleObjectBtreeKeyConvert, List.getElem_map, List.getElem_range]
  rw [constructKey_dimBytes_rest (by simp) (by simp) hfit (Nat.zero_le i) hi]
  rfl

/-! ## The skip-key construction -/

section construct

variable {src : VlBkey} {objKey : VlOkey} {d : Nat}

/-- The key `castle_object_btree_key_construct(src, objKey, d)` builds for `0 < d`. -/
abbrev skipBase (src : VlBkey) (objKey : VlOkey) (d : Nat) : VlBkey :=
  constructKey objKey.length (src.offsetAt d) (src.dimHead.take d)
    (src.payload.take (src.offsetAt d - src.payloadOffset)) (objKey.drop d)

theorem castleObjectBtreeKeyConstruct_some (hdims : src.nrDims = objKey.length) (hd : 0 < d)
    (hdN : d < objKey.length) :
    castleObjectBtreeKeyConstruct (some src) objKey d = some (skipBase src objKey d) := by
  simp [castleObjectBtreeKeyConstruct, Nat.not_le.mpr hdN, hdims, Nat.pos_iff_ne_zero.mp hd]

variable (hsrc : src.WellFormed) (hdims : src.nrDims = objKey.length) (hdN : d < objKey.length)
  (hfit : src.offsetAt d + ((objKey.drop d).map List.length).sum < 2 ^ 24)
include hsrc hdims hdN

theorem skipBase_heads_length : (src.dimHead.take d).length = d := by
  simp [hsrc.dimHead_length, hdims]; omega

theorem skipBase_copied_length :
    (src.payload.take (src.offsetAt d - src.payloadOffset)).length =
      src.offsetAt d - src.payloadOffset := by
  have := hsrc.offsetAt_le_length (show d < src.nrDims by omega)
  have := hsrc.payload_length
  simp; omega

include hfit

theorem skipBase_offsetAt {i : Nat} (hi : i ≤ d) :
    (skipBase src objKey d).offsetAt i = src.offsetAt i := by
  rcases Nat.lt_or_eq_of_le hi with hi | rfl
  · rw [constructKey_offsetAt_heads (by rw [skipBase_heads_length hsrc hdims hdN]; exact hi)]
    simp [VlBkey.offsetAt, List.getElem?_take, hi]
  · have hh := skipBase_heads_length hsrc hdims hdN
    rw [constructKey_offsetAt_rest hfit hh.le (by rw [hh]; simp; omega), hh]
    simp [prefixLength]

theorem skipBase_dimBytes_lt {i : Nat} (hi : i < d) :
    (skipBase src objKey d).dimBytes i = src.dimBytes i := by
  have hend : (skipBase src objKey d).endOffsetAt i = src.endOffsetAt i := by
    simp only [VlBkey.endOffsetAt, constructKey, if_pos (show i + 1 < objKey.length by omega),
      if_pos (show i + 1 < src.nrDims by omega)]
    exact skipBase_offsetAt hsrc hdims hdN hfit (by omega)
  have hoff := skipBase_offsetAt hsrc hdims hdN hfit hi.le
  have hlo := hsrc.payloadOffset_le (show i < src.nrDims by omega)
  have hle := hsrc.endOffsetAt_le hi (show d < src.nrDims by omega)
  have hst := hsrc.step i (by omega)
  have hpl := hsrc.payload_length
  have hd := hsrc.offsetAt_le_length (show d < src.nrDims by omega)
  simp only [VlBkey.dimBytes, castleObjectBtreeKeyDimLength, castleObjectBtreeKeyDimGet, hend, hoff]
  simp only [constructKey, VlBkey.payloadOffset, hdims] at hlo hd hpl ⊢
  exact take_drop_take_append (by omega) (by omega)

theorem skipBase_wellFormed : (skipBase src objKey d).WellFormed := by
  have hh := skipBase_heads_length hsrc hdims hdN
  have hd := hsrc.payloadOffset_le (show d < src.nrDims by omega)
  have hN : (skipBase src objKey d).nrDims = objKey.length := rfl
  have hpo : (skipBase src objKey d).payloadOffset = src.payloadOffset := by
    simp only [VlBkey.payloadOffset, hN, hdims]
  have h16 : 16 ≤ src.payloadOffset := by simp [VlBkey.payloadOffset, vlBkeyHeaderSize]
  have hend : ∀ i, i + 1 < objKey.length →
      (skipBase src objKey d).endOffsetAt i = (skipBase src objKey d).offsetAt (i + 1) :=
    fun i hi => by rw [VlBkey.endOffsetAt, if_pos (by rw [hN]; exact hi)]
  refine ⟨by simp only [hN, constructKey, List.length_append, constructDimHeads_length, hh,
      List.length_drop]; omega, ?_, fun _ => ?_, fun i hi => ?_, fun h hm => ?_⟩
  · rw [hpo]
    simp only [constructKey, List.length_append, List.length_flatten,
      skipBase_copied_length hsrc hdims hdN]
    omega
  · rcases Nat.eq_zero_or_pos d with rfl | hd0
    · rw [skipBase_offsetAt hsrc hdims hdN hfit le_rfl, hpo]
      exact hd
    · rw [skipBase_offsetAt hsrc hdims hdN hfit (Nat.zero_le d), hpo]
      exact hsrc.first (by omega)
  · rw [hN] at hi
    by_cases hid : i < d
    · have hs := hsrc.step i (by omega)
      rw [VlBkey.endOffsetAt, if_pos (show i + 1 < src.nrDims by omega)] at hs
      rw [hend i (by omega), skipBase_offsetAt hsrc hdims hdN hfit hid.le,
        skipBase_offsetAt hsrc hdims hdN hfit (by omega)]
      exact hs
    · rw [constructKey_offsetAt_rest hfit (by rw [hh]; omega) (by simp only [List.length_drop]; omega),
        constructKey_endOffsetAt_rest (by simp only [List.length_drop]; omega) (by omega) hfit
          (by rw [hh]; omega) hi]
      omega
  · rcases List.mem_append.mp hm with hm | hm
    · exact hsrc.dimHead_lt h (List.mem_of_mem_take hm)
    · exact constructDimHeads_lt h hm

/-- `castle_object_btree_key_construct(src, objKey, d)` for `0 < d`, when the key it builds fits
the 24-bit offset field: it is well formed, decodes to `src`'s first `d` dimensions followed by
`objKey`'s from `d` on, keeps `src`'s flags below `d` and has flags `0` from `d` on. -/
theorem castleObjectBtreeKeyConstruct_spec (hd : 0 < d) :
    ∃ key, castleObjectBtreeKeyConstruct (some src) objKey d = some key ∧ key.WellFormed ∧
      castleObjectBtreeKeyConvert key = (castleObjectBtreeKeyConvert src).take d ++ objKey.drop d ∧
      (∀ i < d, castleObjectBtreeKeyDimFlagsGet key i = castleObjectBtreeKeyDimFlagsGet src i) ∧
      (∀ i, d ≤ i → i < objKey.length → castleObjectBtreeKeyDimFlagsGet key i = 0) := by
  have hh := skipBase_heads_length hsrc hdims hdN
  have hlen : (castleObjectBtreeKeyConvert (skipBase src objKey d)).length = objKey.length :=
    castleObjectBtreeKeyConvert_length _
  have htake : ((castleObjectBtreeKeyConvert src).take d).length = d := by
    rw [List.length_take, castleObjectBtreeKeyConvert_length, hdims]
    omega
  have hrest : (src.dimHead.take d).length + (objKey.drop d).length = objKey.length := by
    rw [hh, List.length_drop]; omega
  refine ⟨_, castleObjectBtreeKeyConstruct_some hdims hd hdN, skipBase_wellFormed hsrc hdims hdN hfit,
    ?_, fun i hi => ?_, fun i hlo hhi => ?_⟩
  · refine List.ext_getElem (by rw [hlen, List.length_append, htake, List.length_drop]; omega)
      fun i hi _ => ?_
    rw [hlen] at hi
    rw [castleObjectBtreeKeyConvert_getElem]
    by_cases hid : i < d
    · rw [skipBase_dimBytes_lt hsrc hdims hdN hfit hid, List.getElem_append_left (by omega)]
      simp
    · have hcopy : vlBkeyHeaderSize + 4 * objKey.length +
          (src.payload.take (src.offsetAt d - src.payloadOffset)).length = src.offsetAt d := by
        rw [skipBase_copied_length hsrc hdims hdN]
        have := hsrc.payloadOffset_le (show d < src.nrDims by omega)
        simp only [VlBkey.payloadOffset, hdims] at this ⊢
        omega
      rw [constructKey_dimBytes_rest hrest hcopy hfit (by omega) hi, List.get_eq_getElem,
        List.getElem_append_right (by omega)]
      simp only [hh, htake, List.getElem_drop]
  · rw [constructKey_flags_heads (by omega)]
    simp [castleObjectBtreeKeyDimFlagsGet, List.getElem?_take, hi]
  · exact constructKey_flags_rest (by rw [hh]; exact hlo) (by rw [hrest]; exact hhi)

end construct

/-- The codec laws: decoding an encoded object key gives it back, and the skip-key
construction is well formed and splices the source key's leading dimensions and flags with
the object key's trailing dimensions, flags `0` — each when the key it builds fits the 24-bit
offset field. -/
theorem btree_key_codec_round_trip :
    (∀ objKey : VlOkey, objKey ≠ [] → encodedLength objKey < 2 ^ 24 →
      (castleObjectKeyConvert objKey).map castleObjectBtreeKeyConvert = some objKey) ∧
    (∀ (src : VlBkey) (objKey : VlOkey) (d : Nat), src.WellFormed →
      src.nrDims = objKey.length → 0 < d → d < objKey.length →
      src.offsetAt d + ((objKey.drop d).map List.length).sum < 2 ^ 24 →
      ∃ key, castleObjectBtreeKeyConstruct (some src) objKey d = some key ∧ key.WellFormed ∧
        castleObjectBtreeKeyConvert key = (castleObjectBtreeKeyConvert src).take d ++ objKey.drop d ∧
        (∀ i < d, castleObjectBtreeKeyDimFlagsGet key i = castleObjectBtreeKeyDimFlagsGet src i) ∧
        (∀ i, d ≤ i → i < objKey.length → castleObjectBtreeKeyDimFlagsGet key i = 0)) :=
  ⟨fun _ h hfit => castleObjectBtreeKeyConvert_keyConvert h hfit,
    fun _ _ _ hsrc hdims hd hdN hfit => castleObjectBtreeKeyConstruct_spec hsrc hdims hdN hfit hd⟩

/-- The codec laws at the object key `[[1], [2, 2]]`, and at the skip key built from the
encoding of `[[1], [2], [3]]` and the object key `[[4], [5], [6, 6]]` from dimension `1`. -/
theorem btree_key_codec_round_trip_example :
    (castleObjectKeyConvert [[1], [2, 2]]).map castleObjectBtreeKeyConvert = some [[1], [2, 2]] ∧
    (⟨27, 3, [7168, 7424, 7680], [1, 2, 3]⟩ : VlBkey).WellFormed ∧
    ∃ key, castleObjectBtreeKeyConstruct (some ⟨27, 3, [7168, 7424, 7680], [1, 2, 3]⟩)
        [[4], [5], [6, 6]] 1 = some key ∧ key.WellFormed ∧
      castleObjectBtreeKeyConvert key = [[1], [5], [6, 6]] ∧
      (∀ i < 1, castleObjectBtreeKeyDimFlagsGet key i = 0) ∧
      (∀ i, 1 ≤ i → i < 3 → castleObjectBtreeKeyDimFlagsGet key i = 0) := by
  refine ⟨btree_key_codec_round_trip.1 _ (by decide) (by decide), by decide, ?_⟩
  obtain ⟨key, h1, h2, h3, h4, h5⟩ := btree_key_codec_round_trip.2
    ⟨27, 3, [7168, 7424, 7680], [1, 2, 3]⟩ [[4], [5], [6, 6]] 1 (by decide) rfl (by decide)
    (by decide) (by decide)
  exact ⟨key, h1, h2, by rw [h3]; decide, fun i hi => by rw [h4 i hi, Nat.lt_one_iff.mp hi]; decide,
    h5⟩

/-- A well-formed three-dimensional key whose second and third dimensions start 4 bytes below
`2 ^ 24`, behind a first dimension of `2 ^ 24 - 32` zero bytes. -/
def overflowSrc : VlBkey :=
  { length := 2 ^ 24 - 8, nrDims := 3,
    dimHead := [keyDimensionHeader 28 0, keyDimensionHeader (2 ^ 24 - 4) 0,
      keyDimensionHeader (2 ^ 24 - 4) 0],
    payload := List.replicate (2 ^ 24 - 32) 0 }

theorem overflowSrc_wellFormed : overflowSrc.WellFormed where
  dimHead_length := rfl
  payload_length := by
    rw [show overflowSrc.payload.length = 2 ^ 24 - 32 from List.length_replicate _ _]
    rfl
  first := by decide
  step := by decide
  dimHead_lt := by decide

/-- Constructing from dimension `1` of `overflowSrc` with an 8-byte object dimension (an object
key whose own encoding is 36 bytes) writes dimension 2's offset `2 ^ 24 + 4` into the 24-bit
field as `4`: the key built is not well formed. -/
theorem btree_key_construct_overflow :
    ¬ ((∀ objKey : VlOkey, objKey ≠ [] → encodedLength objKey < 2 ^ 24 →
        (castleObjectKeyConvert objKey).map castleObjectBtreeKeyConvert = some objKey) ∧
      (∀ (src : VlBkey) (objKey : VlOkey) (d : Nat), src.WellFormed →
        src.nrDims = objKey.length → 0 < d → d < objKey.length →
        encodedLength objKey < 2 ^ 24 →
        ∃ key, castleObjectBtreeKeyConstruct (some src) objKey d = some key ∧ key.WellFormed ∧
          castleObjectBtreeKeyConvert key = (castleObjectBtreeKeyConvert src).take d ++ objKey.drop d ∧
          (∀ i < d, castleObjectBtreeKeyDimFlagsGet key i = castleObjectBtreeKeyDimFlagsGet src i) ∧
          (∀ i, d ≤ i → i < objKey.length → castleObjectBtreeKeyDimFlagsGet key i = 0))) := by
  rintro ⟨-, h⟩
  obtain ⟨key, hkey, hwf, -⟩ := h overflowSrc [[], List.replicate 8 0, []] 1
    overflowSrc_wellFormed rfl (by decide) (by decide) (by decide)
  rw [castleObjectBtreeKeyConstruct_some rfl (by decide) (by decide), Option.some_inj] at hkey
  subst hkey
  have := hwf.step 1 (by decide)
  revert this
  decide

end Objects
end Castle
