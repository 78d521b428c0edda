import Castle.Objects.KeyCompare

/-!
# The object range query

`castle_objects_rq_iter_has_next` reads entries from the DA range iterator and keeps those
whose key lies in the hyper-rectangle between the start and end object keys.  At an entry
outside it, `castle_object_btree_key_bounds_check` names the first offending dimension and
whether it is below the start (`-1`) or above the end (`1`), and
`castle_object_btree_key_skip` builds the key to skip the DA iterator to: the entry's
dimensions below the offending one, then the start key's, with the NEXT flag set on the
offending dimension whenever the result of the check is non-zero.

The DA iterator is outside `src/`; it is modelled, as the code uses it, by the entries it has
still to return, its `skip` discarding the leading entries whose key sorts below the key
given.

Every entry the query returns is an entry of the DA iterator, in its order, once, and lies in
the hyper-rectangle; and the query returns, without a `BUG`, whenever the DA iterator returns
keys between the encodings of the start and end keys
(`castleObjectsRqIterEntries_sublist`).  It can lose entries: below the start in some
dimension, the skip key carries NEXT on the start's own bytes, and skipping to it discards
the entries equal to the start in that dimension (`rq_iter_skip_drops_start_bound`); above
the end in some dimension, the skip key is built from the start's bytes there too, and sorts
below the key it was built from (`rq_skip_key_backward`).

`castle_object_btree_key_next` gives the immediate successor of a key with at least one
dimension and no NEXT flag (`btree_key_next_immediate_successor`).
-/

namespace Castle
namespace Objects

/-! ## Key operations -/

/-- `castle_object_btree_key_dim_inc`: sets the NEXT flag of dimension `dim`. -/
def castleObjectBtreeKeyDimInc (key : VlBkey) (dim : Nat) : VlBkey :=
  let flags := keyDimensionFlags (key.dimHead.getD dim 0)
  let offset := keyDimensionOffset (key.dimHead.getD dim 0)
  { key with
    dimHead := key.dimHead.set dim (keyDimensionHeader offset (flags ||| keyDimensionNextFlag)) }

/-- `castle_object_btree_key_next`: a copy of the key with the NEXT flag of its last dimension
set (allocation assumed to succeed). -/
def castleObjectBtreeKeyNext (key : VlBkey) : VlBkey :=
  castleObjectBtreeKeyDimInc key (key.nrDims - 1)

/-- The dimension loop of `castle_object_btree_key_bounds_check` from dimension `dim`, `n`
dimensions to go.  `(-1, d)` at the first dimension `d` below the start, `(1, d)` at the first
above the end, `(0, 0)` when all are within bounds (the code then leaves the offending
dimension unwritten). -/
def boundsCheckFrom (key : VlBkey) (startOkey endOkey : VlOkey) : Nat → Nat → Option (Int × Nat)
  | _, 0 => some (0, 0)
  | dim, n + 1 =>
    let keyDimLen := castleObjectBtreeKeyDimLength key dim
    let keyDim := castleObjectBtreeKeyDimGet key dim
    let keyDimFlags := castleObjectBtreeKeyDimFlagsGet key dim
    let startDim := startOkey.getD dim []
    let endDim := endOkey.getD dim []
    (castleObjectKeyDimCompare keyDim keyDimLen keyDimFlags startDim startDim.length 0).bind
      fun cmp => if cmp < 0 then some (-1, dim) else
    (castleObjectKeyDimCompare keyDim keyDimLen keyDimFlags endDim endDim.length 0).bind
      fun cmp => if cmp > 0 then some (1, dim) else
    boundsCheckFrom key startOkey endOkey (dim + 1) n

/-- `castle_object_btree_key_bounds_check`, returning the result and the offending dimension;
`none` is its `BUG` (dimension counts differ). -/
def castleObjectBtreeKeyBoundsCheck (key : VlBkey) (startOkey endOkey : VlOkey) :
    Option (Int × Nat) :=
  if key.nrDims ≠ startOkey.length ∨ key.nrDims ≠ endOkey.length then none
  else boundsCheckFrom key startOkey endOkey 0 key.nrDims

/-- `castle_object_btree_key_skip`; `none` is a `BUG_ON` of the construction. -/
def castleObjectBtreeKeySkip (oldKey : VlBkey) (start : VlOkey) (offendingDim : Nat)
    (bigger : Int) : Option VlBkey :=
  (castleObjectBtreeKeyConstruct (some oldKey) start offendingDim).map fun newKey =>
    if bigger ≠ 0 then castleObjectBtreeKeyDimInc newKey offendingDim else newKey

/-! ## Setting the NEXT flag -/

theorem keyDimensionOffset_lt {h : Nat} (hh : h < 2 ^ 32) : keyDimensionOffset h < 2 ^ 24 := by
  rw [keyDimensionOffset, keyDimensionFlagsShift, Nat.shiftRight_eq_div_pow]
  omega

theorem keyDimensionFlags_lt (h : Nat) : keyDimensionFlags h < 2 ^ 8 := by
  rw [keyDimensionFlags, show keyDimensionFlagsMask = 2 ^ 8 - 1 from rfl,
    Nat.and_pow_two_sub_one_eq_mod]
  exact Nat.mod_lt _ (Nat.two_pow_pos 8)

theorem or_nextFlag_and_nextFlag (x : Nat) :
    (x ||| keyDimensionNextFlag) &&& keyDimensionNextFlag ≠ 0 := by
  rw [show keyDimensionNextFlag = 1 from rfl, Nat.and_one_is_mod,
    (Nat.mod_two_eq_one_iff_testBit_zero).mpr (by simp [Nat.testBit_or])]
  decide

section dimInc

variable {key : VlBkey} {dim : Nat}

@[simp] theorem castleObjectBtreeKeyDimInc_nrDims :
    (castleObjectBtreeKeyDimInc key dim).nrDims = key.nrDims := rfl

theorem castleObjectBtreeKeyDimInc_getD (i : Nat) :
    (castleObjectBtreeKeyDimInc key dim).dimHead.getD i 0 =
      if i = dim ∧ dim < key.dimHead.length then
        keyDimensionHeader (keyDimensionOffset (key.dimHead.getD dim 0))
          (keyDimensionFlags (key.dimHead.getD dim 0) ||| keyDimensionNextFlag)
      else key.dimHead.getD i 0 := by
  simp only [castleObjectBtreeKeyDimInc, List.getD_eq_getElem?_getD, List.getElem?_set]
  by_cases hi : i = dim
  · subst hi
    by_cases hl : i < key.dimHead.length
    · simp [hl]
    · simp [hl, List.getElem?_eq_none (Nat.le_of_not_lt hl)]
  · simp [hi, Ne.symm hi]

variable (hk : key.WellFormed)
include hk

/-- Setting the NEXT flag keeps every offset. -/
theorem offsetAt_dimInc (i : Nat) : (castleObjectBtreeKeyDimInc key dim).offsetAt i = key.offsetAt i := by
  rw [VlBkey.offsetAt, castleObjectBtreeKeyDimInc_getD]
  split_ifs with h
  · obtain ⟨rfl, hl⟩ := h
    rw [keyDimensionOffset_header, VlBkey.offsetAt]
    refine Nat.mod_eq_of_lt (keyDimensionOffset_lt (hk.dimHead_lt _ ?_))
    rw [List.getD_eq_getElem?_getD, List.getElem?_eq_getElem hl, Option.getD_some]
    exact List.getElem_mem hl
  · rfl

theorem flags_dimInc (i : Nat) :
    castleObjectBtreeKeyDimFlagsGet (castleObjectBtreeKeyDimInc key dim) i =
      if i = dim ∧ dim < key.nrDims then
        castleObjectBtreeKeyDimFlagsGet key i ||| keyDimensionNextFlag
      else castleObjectBtreeKeyDimFlagsGet key i := by
  rw [castleObjectBtreeKeyDimFlagsGet, castleObjectBtreeKeyDimInc_getD, hk.dimHead_length]
  split_ifs with h
  · obtain ⟨rfl, -⟩ := h
    rw [keyDimensionFlags_header, castleObjectBtreeKeyDimFlagsGet]
    exact Nat.mod_eq_of_lt (Nat.or_lt_two_pow (keyDimensionFlags_lt _) (by decide))
  · rfl

theorem endOffsetAt_dimInc (i : Nat) :
    (castleObjectBtreeKeyDimInc key dim).endOffsetAt i = key.endOffsetAt i := by
  simp only [VlBkey.endOffsetAt, castleObjectBtreeKeyDimInc_nrDims, offsetAt_dimInc hk]
  rfl

theorem dimBytes_dimInc (i : Nat) :
    (castleObjectBtreeKeyDimInc key dim).dimBytes i = key.dimBytes i := by
  simp only [VlBkey.dimBytes, castleObjectBtreeKeyDimLength, castleObjectBtreeKeyDimGet,
    endOffsetAt_dimInc hk, offsetAt_dimInc hk]
  rfl

theorem VlBkey.WellFormed.dimInc : (castleObjectBtreeKeyDimInc key dim).WellFormed where
  dimHead_length := by simp [castleObjectBtreeKeyDimInc, hk.dimHead_length]
  payload_length := hk.payload_length
  first h := by rw [offsetAt_dimInc hk]; exact hk.first h
  step i h := by rw [offsetAt_dimInc hk, endOffsetAt_dimInc hk]; exact hk.step i h
  dimHead_lt h hm := by
    rcases List.mem_or_eq_of_mem_set hm with hm | rfl
    · exact hk.dimHead_lt h hm
    · exact Nat.mod_lt _ (Nat.two_pow_pos 32)

/-- Setting the NEXT flag of dimension `dim` sets the NEXT bit of that dimension only. -/
theorem dimView_dimInc (hd : dim < key.nrDims) (i : Nat) :
    (castleObjectBtreeKeyDimInc key dim).dimView i =
      if i = dim then ((key.dimView i).1, true) else key.dimView i := by
  simp only [VlBkey.dimView, dimBytes_dimInc hk, flags_dimInc hk]
  by_cases hi : i = dim
  · simp [hi, hd, or_nextFlag_and_nextFlag]
  · simp [hi]

end dimInc

/-! ## The successor key

`castle_object_btree_key_next` sets the NEXT flag of the last dimension.  On a key with at least
one dimension and no NEXT flag, that gives the key's immediate successor among such keys: the
same dimensions, the last one's NEXT bit breaking the tie. -/

/-- No dimension of the key carries the NEXT flag: the keys the codec builds. -/
def VlBkey.NextFree (key : VlBkey) : Prop :=
  ∀ d < key.nrDims, castleObjectBtreeKeyDimFlagsGet key d &&& keyDimensionNextFlag = 0

instance (key : VlBkey) : Decidable key.NextFree :=
  inferInstanceAs (Decidable (∀ d < key.nrDims, _))

theorem VlBkey.NextFree.view {key : VlBkey} (h : key.NextFree) : ∀ x ∈ key.view, x.2 = false := by
  intro x hx
  obtain ⟨d, hd, rfl⟩ := List.mem_map.mp hx
  simp [VlBkey.dimView, h d (List.mem_range.mp hd)]

@[simp] theorem castleObjectBtreeKeyNext_nrDims (key : VlBkey) :
    (castleObjectBtreeKeyNext key).nrDims = key.nrDims := rfl

/-- The next key's dimensions are the key's, with the NEXT bit of the last one set. -/
theorem view_castleObjectBtreeKeyNext {key : VlBkey} (hk : key.WellFormed) {n : Nat}
    (hn : key.nrDims = n + 1) :
    key.view = (List.range n).map key.dimView ++ [key.dimView n] ∧
      (castleObjectBtreeKeyNext key).view =
        (List.range n).map key.dimView ++ [((key.dimView n).1, true)] := by
  have hd : n < key.nrDims := by omega
  refine ⟨by rw [VlBkey.view, hn, List.range_succ, List.map_append]; rfl, ?_⟩
  rw [VlBkey.view, castleObjectBtreeKeyNext_nrDims, hn, List.range_succ, List.map_append,
    List.map_singleton, castleObjectBtreeKeyNext, hn, Nat.add_sub_cancel, dimView_dimInc hk hd,
    if_pos rfl]
  congr 1
  refine List.map_congr_left fun i hi => ?_
  rw [dimView_dimInc hk hd, if_neg (by simp at hi; omega)]

/-- The code's comparison of a dimension list with the same list, the NEXT bit of its last
dimension set. -/
theorem dimsCmp_append_next : ∀ {xs : List (List UInt8 × Bool)} (b : List UInt8),
    (∀ x ∈ xs, x.2 = false) → dimsCmp (xs ++ [(b, false)]) (xs ++ [(b, true)]) = some .lt
  | [], b, _ => by simp [dimsCmp, dimCmp, dimOrder, bytesCompare_eq_iff.mpr rfl]
  | x :: xs, b, h => by
    have hx : dimCmp x x = some .eq := by
      simp [dimCmp, h x (List.mem_cons_self _ _), dimOrder_eq_iff.mpr rfl]
    simp [dimsCmp, hx, dimsCmp_append_next b fun y hy => h y (List.mem_cons_of_mem _ hy)]

/-- No list without NEXT bits sorts strictly between a list whose last dimension has no NEXT bit
and the same list with that bit set. -/
theorem dimsLex_append_next : ∀ {xs ys : List (List UInt8 × Bool)} {b : List UInt8},
    (∀ y ∈ ys, y.2 = false) → ys.length = xs.length + 1 →
    dimsLex (xs ++ [(b, false)]) ys = .lt → dimsLex ys (xs ++ [(b, true)]) = .gt
  | [], [(c, cf)], b, hy, _, h => by
    obtain rfl : cf = false := hy _ (List.mem_singleton_self _)
    simp only [List.nil_append, dimsLex, dimOrder, bytesCompare_swap b c] at h ⊢
    cases hbc : bytesCompare b c <;> simp_all [Ordering.swap]
  | x :: xs, y :: ys, b, hy, hl, h => by
    simp only [List.cons_append, dimsLex, dimOrder_swap x y] at h ⊢
    cases hxy : dimOrder x y with
    | eq => simp only [hxy] at h ⊢
            exact dimsLex_append_next (fun z hz => hy z (List.mem_cons_of_mem _ hz)) (by simpa using hl) h
    | lt => rfl
    | gt => simp [hxy] at h
  | [], [], _, _, hl, _ | [], _ :: _ :: _, _, _, hl, _ | _ :: _, [], _, _, hl, _ => by simp at hl

/-- On a well-formed key with at least one dimension and no NEXT flag, the next key compares
above it either way round, and no well-formed key without NEXT flags lies strictly between. -/
theorem btree_key_next_immediate_successor {key : VlBkey} (hk : key.WellFormed)
    (hfree : key.NextFree) (hN : 0 < key.nrDims) :
    (∃ c, castleObjectBtreeKeyCompare key (castleObjectBtreeKeyNext key) = some c ∧ c < 0) ∧
    (∃ c, castleObjectBtreeKeyCompare (castleObjectBtreeKeyNext key) key = some c ∧ 0 < c) ∧
    ∀ other : VlBkey, other.WellFormed → other.NextFree → ∀ c1 c2,
      castleObjectBtreeKeyCompare key other = some c1 →
      castleObjectBtreeKeyCompare other (castleObjectBtreeKeyNext key) = some c2 →
      ¬ (c1 < 0 ∧ c2 < 0) := by
  obtain ⟨n, hn⟩ := Nat.exists_eq_succ_of_ne_zero hN.ne'
  obtain ⟨hv, hv'⟩ := view_castleObjectBtreeKeyNext hk hn
  have hk' : (castleObjectBtreeKeyNext key).WellFormed := hk.dimInc
  have hfree' := hfree.view
  rw [hv] at hfree'
  have hlast : key.dimView n = ((key.dimView n).1, false) :=
    Prod.ext rfl (hfree' _ (List.mem_append_right _ (List.mem_singleton_self _)))
  rw [hlast] at hv
  have hlt : (castleObjectBtreeKeyCompare key (castleObjectBtreeKeyNext key)).map signOrdering =
      some .lt := by
    rw [castleObjectBtreeKeyCompare_view hk hk', castleObjectBtreeKeyNext_nrDims, if_neg (lt_irrefl _),
      if_neg (lt_irrefl _), hv, hv']
    exact dimsCmp_append_next _ fun x hx => hfree' x (List.mem_append_left _ hx)
  obtain ⟨c, hc, hcs⟩ := Option.map_eq_some'.mp hlt
  have hc0 := signOrdering_eq_lt.mp hcs
  refine ⟨⟨c, hc, hc0⟩, ⟨-c, by rw [castleObjectBtreeKeyCompare_swap, hc]; rfl, by omega⟩, ?_⟩
  rintro other ho hofree c1 c2 h1 h2 ⟨hc1, hc2⟩
  have o1 := (castleObjectBtreeKeyCompare_sign hk ho h1).symm.trans (signOrdering_eq_lt.mpr hc1)
  have o2 := (castleObjectBtreeKeyCompare_sign ho hk' h2).symm.trans (signOrdering_eq_lt.mpr hc2)
  unfold btreeKeyOrder at o1 o2
  rw [castleObjectBtreeKeyNext_nrDims] at o2
  split_ifs at o1 o2 <;> try first | omega | cases o1 | cases o2
  rw [hv] at o1
  rw [hv', dimsLex_append_next hofree.view (by simp [VlBkey.view]; omega) o1] at o2
  cases o2

/-- The key `[[3], [1]]`. -/
theorem btree_key_next_immediate_successor_example :
    (⟨22, 2, [6144, 6400], [3, 1]⟩ : VlBkey).WellFormed ∧ (⟨22, 2, [6144, 6400], [3, 1]⟩ : VlBkey).NextFree ∧
    0 < (⟨22, 2, [6144, 6400], [3, 1]⟩ : VlBkey).nrDims ∧
    (∃ c, castleObjectBtreeKeyCompare ⟨22, 2, [6144, 6400], [3, 1]⟩
      (castleObjectBtreeKeyNext ⟨22, 2, [6144, 6400], [3, 1]⟩) = some c ∧ c < 0) :=
  have h := @btree_key_next_immediate_successor ⟨22, 2, [6144, 6400], [3, 1]⟩ (by decide) (by decide) (by decide)
  ⟨by decide, by decide, by decide, h.1⟩

/-- A well-formed key of no dimensions is its own next key (the code sets the NEXT flag of no
dimension), and the code calls them equal.  The codec never builds such a key:
`castle_object_key_convert` stops at its `BUG_ON` on an object key of no dimensions. -/
theorem btree_key_next_zero_dims :
    castleObjectKeyConvert [] = none ∧ (⟨12, 0, [], []⟩ : VlBkey).WellFormed ∧
    (⟨12, 0, [], []⟩ : VlBkey).NextFree ∧
    castleObjectBtreeKeyNext ⟨12, 0, [], []⟩ = ⟨12, 0, [], []⟩ ∧
    castleObjectBtreeKeyCompare ⟨12, 0, [], []⟩ (castleObjectBtreeKeyNext ⟨12, 0, [], []⟩) = some 0 := by
  decide

/-! ## The bounds check -/

/-- Dimension `d` of `key` lies between the start's and the end's, its NEXT bit counted. -/
def dimInRange (key : VlBkey) (startOkey endOkey : VlOkey) (d : Nat) : Prop :=
  dimOrder (startOkey.getD d [], false) (key.dimView d) ≠ .gt ∧
    dimOrder (key.dimView d) (endOkey.getD d [], false) ≠ .gt

/-- Comparing a dimension of a well-formed key with an object-key dimension (flags `0`). -/
theorem castleObjectKeyDimCompare_okey {key : VlBkey} (hk : key.WellFormed) {d : Nat}
    (hd : d < key.nrDims) (s : List UInt8) :
    (castleObjectKeyDimCompare (castleObjectBtreeKeyDimGet key d) (castleObjectBtreeKeyDimLength key d)
      (castleObjectBtreeKeyDimFlagsGet key d) s s.length 0).map signOrdering =
      some (dimOrder (key.dimView d) (s, false)) := by
  rw [castleObjectKeyDimCompare_view _ _ _ _ (hk.dimLength_le hd) le_rfl, List.take_length,
    dimCmp]
  simp [Nat.zero_and, VlBkey.dimView, VlBkey.dimBytes]

theorem exists_of_map_signOrdering {o : Option Int} {r : Ordering}
    (h : o.map signOrdering = some r) : ∃ c, o = some c ∧ signOrdering c = r :=
  Option.map_eq_some'.mp h

section boundsCheck

variable {key : VlBkey} {startOkey endOkey : VlOkey} (hk : key.WellFormed)
include hk

/-- The bounds check returns, and names the first dimension out of range, if any. -/
theorem boundsCheckFrom_spec {dim n : Nat} (h : dim + n ≤ key.nrDims) :
    ∃ r, boundsCheckFrom key startOkey endOkey dim n = some r ∧
      ((r.1 = 0 ∧ ∀ i, dim ≤ i → i < dim + n → dimInRange key startOkey endOkey i) ∨
        (r.1 ≠ 0 ∧ dim ≤ r.2 ∧ r.2 < dim + n ∧
          (∀ i, dim ≤ i → i < r.2 → dimInRange key startOkey endOkey i) ∧
          ¬ dimInRange key startOkey endOkey r.2)) := by
  induction n generalizing dim with
  | zero => exact ⟨(0, 0), rfl, Or.inl ⟨rfl, fun i h1 h2 => by omega⟩⟩
  | succ n ih =>
    have hd : dim < key.nrDims := by omega
    obtain ⟨cs, hcs, hss⟩ := exists_of_map_signOrdering
      (castleObjectKeyDimCompare_okey hk hd (startOkey.getD dim []))
    obtain ⟨ce, hce, hse⟩ := exists_of_map_signOrdering
      (castleObjectKeyDimCompare_okey hk hd (endOkey.getD dim []))
    have hsw : dimOrder (startOkey.getD dim [], false) (key.dimView dim) =
        (signOrdering cs).swap := by rw [dimOrder_swap, hss]
    simp only [boundsCheckFrom, hcs, hce, Option.some_bind]
    by_cases hlo : cs < 0
    · refine ⟨(-1, dim), by simp [hlo], Or.inr ⟨by simp, le_rfl, by omega,
        fun i h1 h2 => by omega, fun hin => hin.1 ?_⟩⟩
      rw [hsw, signOrdering_eq_lt.mpr hlo]
      rfl
    · by_cases hhi : ce > 0
      · refine ⟨(1, dim), by simp [hlo, hhi], Or.inr ⟨by simp, le_rfl, by omega,
          fun i h1 h2 => by omega, fun hin => hin.2 ?_⟩⟩
        rw [← hse]
        unfold signOrdering
        split_ifs <;> first | rfl | omega
      · have hin : dimInRange key startOkey endOkey dim := by
          refine ⟨?_, ?_⟩ <;> [rw [hsw]; rw [← hse]] <;> unfold signOrdering <;>
            split_ifs <;> first | decide | omega
        obtain ⟨r, hr, hspec⟩ := @ih (dim + 1) (by omega)
        refine ⟨r, by simp [hlo, hhi, hr], ?_⟩
        rcases hspec with ⟨h0, hall⟩ | ⟨h0, h1, h2, hall, hout⟩
        · refine Or.inl ⟨h0, fun i h1 h2 => ?_⟩
          rcases Nat.lt_or_ge dim i with hi | hi
          · exact hall i hi (by omega)
          · exact (show i = dim by omega) ▸ hin
        · refine Or.inr ⟨h0, by omega, by omega, fun i hi1 hi2 => ?_, hout⟩
          rcases Nat.lt_or_ge dim i with hi | hi
          · exact hall i hi hi2
          · exact (show i = dim by omega) ▸ hin

end boundsCheck

/-! ## A skip key above the end

Above the end in dimension `d`, `castle_object_btree_key_skip` still builds its key from the
start's dimensions from `d` on, with NEXT on dimension `d`.  The key's own dimension `d` is
above the end's, so, unless the start is above the end there, above the start's too: the skip
key sorts below the key, and the skip moves the DA iterator nowhere. -/

/-- A `1` from the bounds check names a dimension above the end's. -/
theorem boundsCheckFrom_one {key : VlBkey} {startOkey endOkey : VlOkey} (hk : key.WellFormed) {d : Nat} :
    ∀ {dim n : Nat}, dim + n ≤ key.nrDims →
      boundsCheckFrom key startOkey endOkey dim n = some (1, d) →
      dim ≤ d ∧ d < dim + n ∧ dimOrder (key.dimView d) (endOkey.getD d [], false) = .gt
  | _, 0, _, hb => by
    simp only [boundsCheckFrom, Option.some.injEq, Prod.mk.injEq] at hb
    omega
  | dim, n + 1, h, hb => by
    have hd : dim < key.nrDims := by omega
    obtain ⟨cs, hcs, -⟩ := exists_of_map_signOrdering
      (castleObjectKeyDimCompare_okey hk hd (startOkey.getD dim []))
    obtain ⟨ce, hce, hse⟩ := exists_of_map_signOrdering
      (castleObjectKeyDimCompare_okey hk hd (endOkey.getD dim []))
    simp only [boundsCheckFrom, hcs, hce, Option.some_bind] at hb
    by_cases hlo : cs < 0
    · simp [hlo] at hb
    · by_cases hhi : ce > 0
      · simp only [hlo, hhi, if_true, if_false, Option.some.injEq, Prod.mk.injEq] at hb
        obtain ⟨-, rfl⟩ := hb
        refine ⟨le_rfl, by omega, ?_⟩
        rw [← hse]
        unfold signOrdering
        split_ifs <;> first | rfl | omega
      · simp only [hlo, hhi, if_false] at hb
        obtain ⟨h1, h2, h3⟩ := boundsCheckFrom_one hk (by omega) hb
        exact ⟨by omega, by omega, h3⟩

/-- The skip key `castle_object_btree_key_skip(key, start, d, 1)` of a well-formed key without
NEXT flags, for `0 < d` and a result that fits the 24-bit offset field: well formed, with the
key's dimensions below `d` and the start's from `d` on, NEXT set on dimension `d` alone. -/
theorem castleObjectBtreeKeySkip_view {key : VlBkey} {startOkey : VlOkey} {d : Nat}
    (hk : key.WellFormed) (hS : startOkey.length = key.nrDims) (hd : 0 < d) (hdN : d < key.nrDims)
    (hfit : key.offsetAt d + ((startOkey.drop d).map List.length).sum < 2 ^ 24) :
    ∃ skip, castleObjectBtreeKeySkip key startOkey d 1 = some skip ∧ skip.WellFormed ∧
      skip.nrDims = key.nrDims ∧ ∀ i < key.nrDims, skip.dimView i =
        if i < d then key.dimView i else if i = d then (startOkey.getD d [], true)
        else (startOkey.getD i [], false) := by
  obtain ⟨base, hcons, hwf, hconv, hflo, hfhi⟩ :=
    castleObjectBtreeKeyConstruct_spec hk hS.symm (by omega) hfit hd
  have hN : base.nrDims = key.nrDims := by
    rw [← castleObjectBtreeKeyConvert_length base, hconv]
    simp [hS]; omega
  -- the base's bytes: the key's below `d`, the start's from `d` on
  have hbytes : ∀ i < key.nrDims, base.dimBytes i = if i < d then key.dimBytes i else startOkey.getD i [] := by
    intro i hi
    have h := congrArg (·[i]?) hconv
    simp only [castleObjectBtreeKeyConvert_getElem? base (hN ▸ hi)] at h
    split_ifs with hid
    · rw [List.getElem?_append_left (by simp [hid, hi.le]; omega), List.getElem?_take_of_lt hid,
        castleObjectBtreeKeyConvert_getElem? key hi] at h
      exact Option.some_inj.mp h
    · rw [List.getElem?_append_right (by simp; omega), List.getElem?_drop, List.length_take,
        castleObjectBtreeKeyConvert_length, Nat.min_eq_left (by omega),
        Nat.add_sub_cancel' (by omega)] at h
      rw [List.getD_eq_getElem?_getD, ← h]
      rfl
  refine ⟨castleObjectBtreeKeyDimInc base d, by simp [castleObjectBtreeKeySkip, hcons], hwf.dimInc,
    by simp [hN], fun i hi => ?_⟩
  rw [dimView_dimInc hwf (by omega)]
  by_cases h1 : i < d
  · simp [VlBkey.dimView, hbytes i hi, h1, hflo i h1, (show i ≠ d by omega)]
  · by_cases h2 : i = d
    · rw [if_pos h2, if_neg h1, if_pos h2, VlBkey.dimView, hbytes i hi, if_neg h1, h2]
    · simp [VlBkey.dimView, hbytes i hi, h1, h2, hfhi i (by omega) (by omega), Nat.zero_and]

/-- A well-formed key without NEXT flags, above the end in dimension `d > 0` where the start is
not above the end: the skip key sorts strictly below the key (when it fits the 24-bit offset
field). -/
theorem rq_skip_key_backward {key : VlBkey} {startOkey endOkey : VlOkey} {d : Nat}
    (hk : key.WellFormed) (hfree : key.NextFree) (hS : startOkey.length = key.nrDims)
    (hE : endOkey.length = key.nrDims)
    (hb : castleObjectBtreeKeyBoundsCheck key startOkey endOkey = some (1, d)) (hd : 0 < d)
    (hSE : bytesCompare (startOkey.getD d []) (endOkey.getD d []) ≠ .gt)
    (hfit : key.offsetAt d + ((startOkey.drop d).map List.length).sum < 2 ^ 24) :
    ∃ skip c, castleObjectBtreeKeySkip key startOkey d 1 = some skip ∧
      castleObjectBtreeKeyCompare key skip = some c ∧ 0 < c := by
  rw [castleObjectBtreeKeyBoundsCheck, if_neg (by omega)] at hb
  obtain ⟨-, hdN, hgt⟩ := boundsCheckFrom_one hk (Nat.zero_add _).le hb
  rw [Nat.zero_add] at hdN
  obtain ⟨skip, hskip, hQ, hN, hview⟩ := castleObjectBtreeKeySkip_view hk hS hd hdN hfit
  -- each dimension below `d` compares equal, dimension `d` above
  have heq : ∀ i < d, btreeKeyDimCompare key skip i = some 0 := by
    intro i hi
    have hv := btreeKeyDimCompare_view hk hQ (show i < key.nrDims by omega) (by omega)
    rw [hview i (by omega), if_pos hi, dimCmp, if_neg (by simp [VlBkey.dimView, hfree i (by omega)]),
      dimOrder_eq_iff.mpr rfl] at hv
    obtain ⟨c, hc, hcs⟩ := Option.map_eq_some'.mp hv
    rw [hc, signOrdering_eq_eq.mp hcs]
  have hkd : key.dimView d = (key.dimBytes d, false) := by simp [VlBkey.dimView, hfree d hdN]
  have hgt' : bytesCompare (key.dimBytes d) (startOkey.getD d []) = .gt := by
    rw [hkd] at hgt
    refine bytesCompare_gt_of_not_gt ?_ hSE
    revert hgt; unfold dimOrder; cases bytesCompare (key.dimBytes d) (endOkey.getD d []) <;> simp
  have hv := btreeKeyDimCompare_view hk hQ hdN (by omega)
  rw [hview d hdN, if_neg (lt_irrefl d), if_pos rfl, hkd, dimCmp, if_neg (by simp), dimOrder] at hv
  simp only [hgt'] at hv
  obtain ⟨c, hc, hcs⟩ := Option.map_eq_some'.mp hv
  have hc0 : 0 < c := by unfold signOrdering at hcs; split_ifs at hcs; omega
  refine ⟨skip, c, hskip, ?_, hc0⟩
  rw [castleObjectBtreeKeyCompare, if_neg (by omega)]
  exact castleObjectBtreeKeyCompareFrom_of_first heq hc hc0.ne' (Nat.zero_le d) (by omega)

/-- From `[[2], [2]]` to `[[4], [4]]`, the key `[[3], [5]]` is above the end in dimension
`1`, and its skip key `[[3], [2]]` with NEXT on dimension `1` sorts below it. -/
theorem rq_skip_key_backward_example :
    castleObjectBtreeKeyBoundsCheck ⟨22, 2, [6144, 6400], [3, 5]⟩ [[2], [2]] [[4], [4]] = some (1, 1) ∧
    ∃ skip c, castleObjectBtreeKeySkip ⟨22, 2, [6144, 6400], [3, 5]⟩ [[2], [2]] 1 1 = some skip ∧
      castleObjectBtreeKeyCompare ⟨22, 2, [6144, 6400], [3, 5]⟩ skip = some c ∧ 0 < c :=
  ⟨by decide, @rq_skip_key_backward ⟨22, 2, [6144, 6400], [3, 5]⟩ [[2], [2]] [[4], [4]] 1
    (by decide) (by decide) rfl rfl (by decide) (by decide) (by decide) (by decide)⟩

/-! ## The iterators -/

/-- Modelled from the spec: the DA range iterator `castle_da_rq_iter` (outside `src/`), as the
entries (key and the version and value it carries) it has still to return, in order. -/
abbrev DaRqIter (β : Type) := List (VlBkey × β)

/-- `key` sorts strictly below `bound` (`false` where the comparison reaches its `BUG_ON`). -/
def keyBefore (key bound : VlBkey) : Bool :=
  match castleObjectBtreeKeyCompare key bound with
  | some c => decide (c < 0)
  | none => false

/-- `key` sorts below or equal to `bound`. -/
def keyLe (key bound : VlBkey) : Bool :=
  match castleObjectBtreeKeyCompare key bound with
  | some c => decide (c ≤ 0)
  | none => false

/-- Modelled from the spec: `castle_da_rq_iter.skip(iter, key)` discards the pending entries
that sort below `key`. -/
def daRqIterSkip {β : Type} (it : DaRqIter β) (key : VlBkey) : DaRqIter β :=
  it.dropWhile fun e => keyBefore e.1 key

/-- Modelled from the spec: what the range query may expect of the DA iterator: keys strictly
ascending, well formed, NEXT-free and between the encodings of the start and end keys. -/
def DaRqIterValid {β : Type} (startBkey endBkey : VlBkey) (it : DaRqIter β) : Prop :=
  it.Pairwise (fun a b => keyBefore a.1 b.1 = true) ∧
    ∀ e ∈ it, e.1.WellFormed ∧
      (∀ d < e.1.nrDims, castleObjectBtreeKeyDimFlagsGet e.1 d &&& keyDimensionNextFlag = 0) ∧
      keyLe startBkey e.1 = true ∧ keyLe e.1 endBkey = true

instance {β : Type} (startBkey endBkey : VlBkey) (it : DaRqIter β) :
    Decidable (DaRqIterValid startBkey endBkey it) := by
  unfold DaRqIterValid; infer_instance

/-- The state of `c_obj_rq_iter_t` the iteration changes: the cached entry and the DA
iterator. -/
structure ObjRqIter (β : Type) where
  cached : Option (VlBkey × β)
  daRqIter : DaRqIter β

variable {β : Type}

/-- The `while(1)` loop of `castle_objects_rq_iter_has_next`, `fuel` rounds; `none` is a `BUG`
or the fuel running out. -/
def rqIterHasNextLoop (startOkey endOkey : VlOkey) : Nat → ObjRqIter β → Option (Bool × ObjRqIter β)
  | 0, _ => none
  | _ + 1, ⟨some e, it⟩ => some (true, ⟨some e, it⟩)
  | _ + 1, ⟨none, []⟩ => some (false, ⟨none, []⟩)
  | fuel + 1, ⟨none, (k, x) :: it⟩ =>
    (castleObjectBtreeKeyBoundsCheck k startOkey endOkey).bind fun (bigger, offendingDim) =>
    if bigger ≠ 0 then
      (castleObjectBtreeKeySkip k startOkey offendingDim bigger).bind fun nextKey =>
      rqIterHasNextLoop startOkey endOkey fuel ⟨none, daRqIterSkip it nextKey⟩
    else some (true, ⟨some (k, x), it⟩)

/-- `castle_objects_rq_iter_has_next`.  Each round but the last consumes a DA entry, so the
loop runs at most once per pending entry and once more. -/
def castleObjectsRqIterHasNext (startOkey endOkey : VlOkey) (iter : ObjRqIter β) :
    Option (Bool × ObjRqIter β) :=
  rqIterHasNextLoop startOkey endOkey (iter.daRqIter.length + 1) iter

/-- `castle_objects_rq_iter_next`; `none` is its `BUG_ON` (nothing cached). -/
def castleObjectsRqIterNext (iter : ObjRqIter β) : Option ((VlBkey × β) × ObjRqIter β) :=
  iter.cached.map fun e => (e, ⟨none, iter.daRqIter⟩)

/-- The `while(has_next) next` loop of `castle_object_slice_get`, `fuel` rounds: the entries
the iterator returns, in order. -/
def rqIterDrain (startOkey endOkey : VlOkey) : Nat → ObjRqIter β → Option (List (VlBkey × β))
  | 0, _ => none
  | fuel + 1, iter =>
    (castleObjectsRqIterHasNext startOkey endOkey iter).bind fun (hasNext, iter) =>
    if hasNext then
      (castleObjectsRqIterNext iter).bind fun (e, iter) =>
      (rqIterDrain startOkey endOkey fuel iter).map (e :: ·)
    else some []

/-- The entries a range query returns from a freshly initialised iterator over the DA
iterator `inner` (each round of the loop but the last consumes a DA entry). -/
def castleObjectsRqIterEntries (startOkey endOkey : VlOkey) (inner : DaRqIter β) :
    Option (List (VlBkey × β)) :=
  rqIterDrain startOkey endOkey (inner.length + 1) ⟨none, inner⟩

/-! ## The intended result -/

/-- An object key lies in the hyper-rectangle from `startOkey` to `endOkey`: dimension by
dimension between the two, bytewise with a proper prefix first. -/
def okeyInRange : VlOkey → VlOkey → VlOkey → Bool
  | s :: ss, e :: es, k :: ks =>
    bytesCompare s k != .gt && bytesCompare k e != .gt && okeyInRange ss es ks
  | [], [], [] => true
  | _, _, _ => false

/-- The entries of a DA iterator whose keys lie in the hyper-rectangle. -/
def rqExpected (startOkey endOkey : VlOkey) (inner : DaRqIter β) : DaRqIter β :=
  inner.filter fun e => okeyInRange startOkey endOkey (castleObjectBtreeKeyConvert e.1)

/-! ## In range -/

theorem bytesCompare_ne_gt_of_dimOrder {x y : List UInt8 × Bool} (h : dimOrder x y ≠ .gt) :
    bytesCompare x.1 y.1 ≠ .gt := by
  intro hb; exact h (by simp [dimOrder, hb])

theorem okeyInRange_of_forall {startOkey endOkey keyOkey : VlOkey}
    (hS : startOkey.length = keyOkey.length) (hE : endOkey.length = keyOkey.length)
    (h : ∀ i (hi : i < keyOkey.length), bytesCompare (startOkey.getD i []) keyOkey[i] ≠ .gt ∧
      bytesCompare keyOkey[i] (endOkey.getD i []) ≠ .gt) :
    okeyInRange startOkey endOkey keyOkey = true := by
  induction keyOkey generalizing startOkey endOkey with
  | nil =>
    rw [List.length_eq_zero.mp hS, List.length_eq_zero.mp hE]
    rfl
  | cons k ks ih =>
    obtain ⟨s, ss, rfl⟩ := List.exists_cons_of_length_eq_add_one hS
    obtain ⟨e, es, rfl⟩ := List.exists_cons_of_length_eq_add_one hE
    obtain ⟨h1, h2⟩ := h 0 (by simp)
    simp only [okeyInRange, List.getD_cons_zero, List.getElem_cons_zero] at h1 h2 ⊢
    simp only [Bool.and_eq_true]
    refine ⟨⟨by revert h1; cases bytesCompare s k <;> decide,
      by revert h2; cases bytesCompare k e <;> decide⟩,
      ih (by simpa using hS) (by simpa using hE) fun i hi => ?_⟩
    simpa using h (i + 1) (by simpa using hi)

/-- A well-formed key all of whose dimensions are in range decodes into the hyper-rectangle. -/
theorem okeyInRange_convert {key : VlBkey} {startOkey endOkey : VlOkey}
    (hS : key.nrDims = startOkey.length) (hE : key.nrDims = endOkey.length)
    (h : ∀ i < key.nrDims, dimInRange key startOkey endOkey i) :
    okeyInRange startOkey endOkey (castleObjectBtreeKeyConvert key) = true := by
  refine okeyInRange_of_forall (by simp [hS]) (by simp [hE]) fun i hi => ?_
  rw [castleObjectBtreeKeyConvert_length] at hi
  rw [castleObjectBtreeKeyConvert_getElem]
  exact ⟨bytesCompare_ne_gt_of_dimOrder (h i hi).1, bytesCompare_ne_gt_of_dimOrder (h i hi).2⟩

theorem signOrdering_ne_gt {c : Int} (h : c ≤ 0) : signOrdering c ≠ .gt := by
  unfold signOrdering; split_ifs <;> first | decide | omega

theorem dimOrder_ne_gt_of_dimsLex {x y : List UInt8 × Bool} {xs ys : List (List UInt8 × Bool)}
    (h : dimsLex (x :: xs) (y :: ys) ≠ .gt) : dimOrder x y ≠ .gt := by
  intro hxy; exact h (by simp [dimsLex, hxy])

theorem view_eq_cons {key : VlBkey} (h : 0 < key.nrDims) :
    ∃ rest, key.view = key.dimView 0 :: rest := by
  obtain ⟨n, hn⟩ := Nat.exists_eq_succ_of_ne_zero (Nat.pos_iff_ne_zero.mp h)
  exact ⟨_, by rw [VlBkey.view, hn, List.range_succ_eq_map, List.map_cons]⟩

/-- A well-formed key between the encodings of the start and end keys has their dimension
count, and its first dimension is in range. -/
theorem dimInRange_zero_of_keyLe {key startBkey endBkey : VlBkey} {startOkey endOkey : VlOkey}
    (hk : key.WellFormed) (hne : startOkey ≠ []) (hl : startOkey.length = endOkey.length)
    (hfitS : encodedLength startOkey < 2 ^ 24) (hfitE : encodedLength endOkey < 2 ^ 24)
    (hS : castleObjectKeyConvert startOkey = some startBkey)
    (hE : castleObjectKeyConvert endOkey = some endBkey)
    (hlo : keyLe startBkey key = true) (hhi : keyLe key endBkey = true) :
    key.nrDims = startOkey.length ∧ dimInRange key startOkey endOkey 0 := by
  have hne' : endOkey ≠ [] := fun h => hne (List.eq_nil_of_length_eq_zero (by simp [hl, h]))
  obtain ⟨kS, hkS, hwS, hnS, hvS⟩ := castleObjectKeyConvert_view hne hfitS
  obtain ⟨kE, hkE, hwE, hnE, hvE⟩ := castleObjectKeyConvert_view hne' hfitE
  rw [hS, Option.some_inj] at hkS
  rw [hE, Option.some_inj] at hkE
  subst hkS hkE
  unfold keyLe at hlo hhi
  split at hlo <;> rename_i c1 h1 <;> simp only [decide_eq_true_eq, Bool.false_eq_true] at hlo
  split at hhi <;> rename_i c2 h2 <;> simp only [decide_eq_true_eq, Bool.false_eq_true] at hhi
  have o1 := castleObjectBtreeKeyCompare_sign hwS hk h1 ▸ signOrdering_ne_gt hlo
  have o2 := castleObjectBtreeKeyCompare_sign hk hwE h2 ▸ signOrdering_ne_gt hhi
  unfold btreeKeyOrder at o1 o2
  have hn : key.nrDims = startOkey.length := by
    split_ifs at o1 o2 <;> first | omega | simp at o1 o2
  rw [if_neg (by omega), if_neg (by omega)] at o1 o2
  obtain ⟨s, ss, rfl⟩ := List.exists_cons_of_ne_nil hne
  obtain ⟨e, es, rfl⟩ := List.exists_cons_of_ne_nil hne'
  obtain ⟨rest, hrest⟩ := @view_eq_cons key (by simp [hn])
  rw [hvS, hrest, List.map_cons] at o1
  rw [hvE, hrest, List.map_cons] at o2
  exact ⟨hn, dimOrder_ne_gt_of_dimsLex o1, dimOrder_ne_gt_of_dimsLex o2⟩

/-! ## What the iterator returns -/

/-- What the iterator needs of a DA entry's key: well formed, with the query's dimension
count, and its first dimension in range. -/
structure RqKeyOk (startOkey endOkey : VlOkey) (key : VlBkey) : Prop where
  wellFormed : key.WellFormed
  nrDims : key.nrDims = startOkey.length
  first : dimInRange key startOkey endOkey 0

section iterator

variable {startOkey endOkey : VlOkey} (hl : startOkey.length = endOkey.length)
include hl

/-- On such a key the bounds check returns; in range when it returns `0`, and otherwise
naming a dimension past the first. -/
theorem castleObjectBtreeKeyBoundsCheck_spec {key : VlBkey} (hok : RqKeyOk startOkey endOkey key) :
    ∃ r, castleObjectBtreeKeyBoundsCheck key startOkey endOkey = some r ∧
      (r.1 = 0 → okeyInRange startOkey endOkey (castleObjectBtreeKeyConvert key) = true) ∧
      (r.1 ≠ 0 → 0 < r.2 ∧ r.2 < startOkey.length) := by
  have hn := hok.nrDims
  obtain ⟨r, hr, hspec⟩ :=
    @boundsCheckFrom_spec key startOkey endOkey hok.wellFormed 0 key.nrDims (by omega)
  refine ⟨r, by rw [castleObjectBtreeKeyBoundsCheck, if_neg (by omega), hr], ?_⟩
  rcases hspec with ⟨h0, hall⟩ | ⟨h0, -, hlt, -, hout⟩
  · exact ⟨fun _ => okeyInRange_convert hn (by omega) fun i hi => hall i (Nat.zero_le i) (by omega),
      fun h => absurd h0 h⟩
  · refine ⟨fun h => absurd h h0, fun _ => ⟨Nat.pos_of_ne_zero fun h => ?_, by omega⟩⟩
    rw [h] at hout
    exact hout hok.first

/-- One call of the `has_next` loop from an empty cache: it finds nothing, or caches an entry
in range, all it consumed being entries before it. -/
theorem rqIterHasNextLoop_spec : ∀ (fuel : Nat) (pending : DaRqIter β),
    (∀ e ∈ pending, RqKeyOk startOkey endOkey e.1) → pending.length < fuel →
    rqIterHasNextLoop startOkey endOkey fuel ⟨none, pending⟩ = some (false, ⟨none, []⟩) ∨
      ∃ e rest, rqIterHasNextLoop startOkey endOkey fuel ⟨none, pending⟩ =
          some (true, ⟨some e, rest⟩) ∧ (e :: rest).Sublist pending ∧
        okeyInRange startOkey endOkey (castleObjectBtreeKeyConvert e.1) = true
  | 0, _, _, hf => absurd hf (Nat.not_lt_zero _)
  | _ + 1, [], _, _ => Or.inl rfl
  | fuel + 1, (k, x) :: it, hok, hf => by
    have hk := hok (k, x) (List.mem_cons_self _ _)
    obtain ⟨⟨b, d⟩, hr, hin, hdim⟩ := castleObjectBtreeKeyBoundsCheck_spec hl hk
    by_cases hb : b = 0
    · subst hb
      exact Or.inr ⟨(k, x), it, by simp [rqIterHasNextLoop, hr], List.Sublist.refl _, hin rfl⟩
    · obtain ⟨hd0, hdN⟩ := hdim hb
      have hskip : castleObjectBtreeKeySkip k startOkey d b = some
          (if b ≠ 0 then castleObjectBtreeKeyDimInc (skipBase k startOkey d) d
            else skipBase k startOkey d) := by
        rw [castleObjectBtreeKeySkip, castleObjectBtreeKeyConstruct_some hk.nrDims hd0 hdN]
        rfl
      have hsub := @List.dropWhile_sublist _ it
        (fun e => keyBefore e.1 (if b ≠ 0 then castleObjectBtreeKeyDimInc (skipBase k startOkey d) d
          else skipBase k startOkey d))
      have hstep : rqIterHasNextLoop startOkey endOkey (fuel + 1) ⟨none, (k, x) :: it⟩ =
          rqIterHasNextLoop startOkey endOkey fuel ⟨none, daRqIterSkip it
            (if b ≠ 0 then castleObjectBtreeKeyDimInc (skipBase k startOkey d) d
              else skipBase k startOkey d)⟩ := by
        simp only [rqIterHasNextLoop, hr, Option.some_bind, if_pos hb, hskip]
      rw [hstep]
      rcases rqIterHasNextLoop_spec fuel _
          (fun e he => hok e (List.mem_cons_of_mem _ (hsub.subset he)))
          (by have := hsub.length_le; simp at hf; omega) with h | ⟨e, rest, h, hs, hin⟩
      · exact Or.inl h
      · exact Or.inr ⟨e, rest, h, (hs.trans hsub).trans (List.sublist_cons_self _ _), hin⟩

/-- Draining the iterator from an empty cache returns, with DA entries in range, each once, in
the DA order. -/
theorem rqIterDrain_spec : ∀ (fuel : Nat) (pending : DaRqIter β),
    (∀ e ∈ pending, RqKeyOk startOkey endOkey e.1) → pending.length < fuel →
    ∃ out, rqIterDrain startOkey endOkey fuel ⟨none, pending⟩ = some out ∧
      out.Sublist (rqExpected startOkey endOkey pending)
  | 0, _, _, hf => absurd hf (Nat.not_lt_zero _)
  | fuel + 1, pending, hok, hf => by
    rcases rqIterHasNextLoop_spec hl (pending.length + 1) pending hok (Nat.lt_succ_self _) with
      h | ⟨e, rest, h, hs, hin⟩
    · exact ⟨[], by simp [rqIterDrain, castleObjectsRqIterHasNext, h], List.nil_sublist _⟩
    · obtain ⟨out, hout, hsub⟩ := rqIterDrain_spec fuel rest
        (fun e he => hok e (hs.subset (List.mem_cons_of_mem _ he)))
        (by have := hs.length_le; simp at this; omega)
      refine ⟨e :: out, by simp [rqIterDrain, castleObjectsRqIterHasNext, h,
        castleObjectsRqIterNext, hout], ?_⟩
      have hcons : rqExpected startOkey endOkey (e :: rest) =
          e :: rqExpected startOkey endOkey rest := by
        simp [rqExpected, hin]
      exact (hsub.cons_cons e).trans (hcons ▸ hs.filter _)

end iterator

/-- The range query returns, without a `BUG`, whenever the DA iterator returns well-formed keys
between the encodings of start and end keys that fit the 24-bit offset field; and what it
returns are DA entries in the hyper-rectangle, each once, in the DA order. -/
theorem castleObjectsRqIterEntries_sublist {startOkey endOkey : VlOkey} {startBkey endBkey : VlBkey}
    (hne : startOkey ≠ []) (hl : startOkey.length = endOkey.length)
    (hfitS : encodedLength startOkey < 2 ^ 24) (hfitE : encodedLength endOkey < 2 ^ 24)
    (hS : castleObjectKeyConvert startOkey = some startBkey)
    (hE : castleObjectKeyConvert endOkey = some endBkey) (inner : DaRqIter β)
    (hinner : ∀ e ∈ inner, e.1.WellFormed ∧ keyLe startBkey e.1 = true ∧ keyLe e.1 endBkey = true) :
    ∃ out, castleObjectsRqIterEntries startOkey endOkey inner = some out ∧
      out.Sublist (rqExpected startOkey endOkey inner) := by
  refine rqIterDrain_spec hl _ inner (fun e he => ?_) (Nat.lt_succ_self _)
  obtain ⟨hwf, hlo, hhi⟩ := hinner e he
  obtain ⟨hn, h0⟩ := dimInRange_zero_of_keyLe hwf hne hl hfitS hfitE hS hE hlo hhi
  exact ⟨hwf, hn, h0⟩

/-- The query over the DA entries with keys `[[3], [1]]` and `[[3], [2]]`, from `[[2], [2]]` to
`[[4], [4]]`, returns without a `BUG`, and only entries in range. -/
theorem castleObjectsRqIterEntries_sublist_example :
    ∃ out, castleObjectsRqIterEntries [[2], [2]] [[4], [4]]
        [(⟨22, 2, [6144, 6400], [3, 1]⟩, 1), (⟨22, 2, [6144, 6400], [3, 2]⟩, 2)] = some out ∧
      out.Sublist (rqExpected [[2], [2]] [[4], [4]]
        [(⟨22, 2, [6144, 6400], [3, 1]⟩, 1), (⟨22, 2, [6144, 6400], [3, 2]⟩, 2)]) :=
  @castleObjectsRqIterEntries_sublist Nat [[2], [2]] [[4], [4]] ⟨22, 2, [6144, 6400], [2, 2]⟩
    ⟨22, 2, [6144, 6400], [4, 4]⟩ (by decide) rfl (by decide) (by decide) (by decide) (by decide)
    [(⟨22, 2, [6144, 6400], [3, 1]⟩, 1), (⟨22, 2, [6144, 6400], [3, 2]⟩, 2)] (by decide)

/-- The query from `[[2], [2]]` to `[[4], [4]]` over DA entries with keys `[[3], [1]]` and
`[[3], [2]]`: the first is below the start in dimension `1`, the skip key is `[[3], [2]]`
with NEXT on dimension `1`, and skipping to it discards `[[3], [2]]`, which is in range. -/
theorem rq_iter_skip_drops_start_bound :
    castleObjectKeyConvert [[2], [2]] = some ⟨22, 2, [6144, 6400], [2, 2]⟩ ∧
    castleObjectKeyConvert [[4], [4]] = some ⟨22, 2, [6144, 6400], [4, 4]⟩ ∧
    castleObjectKeyConvert [[3], [1]] = some ⟨22, 2, [6144, 6400], [3, 1]⟩ ∧
    castleObjectKeyConvert [[3], [2]] = some ⟨22, 2, [6144, 6400], [3, 2]⟩ ∧
    DaRqIterValid ⟨22, 2, [6144, 6400], [2, 2]⟩ ⟨22, 2, [6144, 6400], [4, 4]⟩
      [(⟨22, 2, [6144, 6400], [3, 1]⟩, 1), (⟨22, 2, [6144, 6400], [3, 2]⟩, 2)] ∧
    castleObjectsRqIterEntries [[2], [2]] [[4], [4]]
      [(⟨22, 2, [6144, 6400], [3, 1]⟩, 1), (⟨22, 2, [6144, 6400], [3, 2]⟩, 2)] = some [] ∧
    rqExpected [[2], [2]] [[4], [4]]
      [(⟨22, 2, [6144, 6400], [3, 1]⟩, 1), (⟨22, 2, [6144, 6400], [3, 2]⟩, 2)] =
      [(⟨22, 2, [6144, 6400], [3, 2]⟩, 2)] := by
  decide

end Objects
end Castle
