import Castle.Objects.Key

/-!
# Comparing B-tree keys

`castle_object_btree_key_compare` orders B-tree keys by their number of
dimensions and then dimension by dimension.  Two dimensions compare by their
bytes (`memcmp` over the shorter length, then the shorter one first) and, when
the bytes are identical, by the NEXT flag: a dimension carrying it sorts right
after the same bytes without it.  Two dimensions that both carry it reach a
`BUG_ON`; we return `none` there.

The intended order is stated separately (`btreeKeyOrder`): the lexicographic
order on the dimension count and the list of (bytes, NEXT bit) pairs.  The code
computes it on well-formed keys wherever it does not reach the `BUG_ON`
(`castleObjectBtreeKeyCompare_sign`); it is antisymmetric on all keys and
transitive on well-formed ones; and it orders encoded object keys as their
dimensions, when their encodings fit the 24-bit offset field.
-/

namespace Castle
namespace Objects

/-! ## The comparisons the code makes -/

/-- Modelled from the spec: `memcmp` (the C library's, outside `src/`) compares the first `n`
bytes as `unsigned char` and returns the difference of the first differing pair. -/
def memcmp : List UInt8 → List UInt8 → Nat → Int
  | a :: as, b :: bs, n + 1 =>
    if (a.toNat : Int) - b.toNat ≠ 0 then (a.toNat : Int) - b.toNat else memcmp as bs n
  | _, _, _ => 0

/-- `castle_object_key_dim_compare`; `none` is its `BUG_ON` (both dimensions carry NEXT). -/
def castleObjectKeyDimCompare (dimA : List UInt8) (dimALen dimAFlags : Nat)
    (dimB : List UInt8) (dimBLen dimBFlags : Nat) : Option Int :=
  let cmp := memcmp dimA dimB (if dimALen > dimBLen then dimBLen else dimALen)
  if cmp ≠ 0 then some cmp else
  if dimALen ≠ dimBLen then some (if dimALen > dimBLen then 1 else -1) else
  let dimANextFlag := dimAFlags &&& keyDimensionNextFlag
  let dimBNextFlag := dimBFlags &&& keyDimensionNextFlag
  if dimANextFlag ≠ 0 ∧ dimBNextFlag ≠ 0 then none
  else if dimANextFlag ≠ 0 then some 1
  else if dimBNextFlag ≠ 0 then some (-1)
  else some 0

/-- `castle_object_key_dim_compare` on dimension `dim` of two B-tree keys. -/
def btreeKeyDimCompare (key1 key2 : VlBkey) (dim : Nat) : Option Int :=
  castleObjectKeyDimCompare (castleObjectBtreeKeyDimGet key1 dim)
    (castleObjectBtreeKeyDimLength key1 dim) (castleObjectBtreeKeyDimFlagsGet key1 dim)
    (castleObjectBtreeKeyDimGet key2 dim) (castleObjectBtreeKeyDimLength key2 dim)
    (castleObjectBtreeKeyDimFlagsGet key2 dim)

/-- The loop of `castle_object_btree_key_compare` from dimension `dim`, `n` dimensions to go. -/
def castleObjectBtreeKeyCompareFrom (key1 key2 : VlBkey) : Nat → Nat → Option Int
  | _, 0 => some 0
  | dim, n + 1 => (btreeKeyDimCompare key1 key2 dim).bind fun cmp =>
    if cmp ≠ 0 then some cmp else castleObjectBtreeKeyCompareFrom key1 key2 (dim + 1) n

/-- `castle_object_btree_key_compare`; `none` when it reaches the `BUG_ON` of
`castle_object_key_dim_compare`. -/
def castleObjectBtreeKeyCompare (key1 key2 : VlBkey) : Option Int :=
  if key1.nrDims ≠ key2.nrDims then some (if key1.nrDims > key2.nrDims then 1 else -1)
  else castleObjectBtreeKeyCompareFrom key1 key2 0 key1.nrDims

/-! ## The intended order -/

/-- The sign of a comparison result. -/
def signOrdering (c : Int) : Ordering := if c < 0 then .lt else if c = 0 then .eq else .gt

/-- Bytewise lexicographic order on byte strings, a proper prefix first. -/
def bytesCompare : List UInt8 → List UInt8 → Ordering
  | [], [] => .eq
  | [], _ :: _ => .lt
  | _ :: _, [] => .gt
  | a :: as, b :: bs =>
    if a.toNat < b.toNat then .lt else if b.toNat < a.toNat then .gt else bytesCompare as bs

/-- A dimension's place in the order: its bytes, then its NEXT bit, unset before set. -/
def dimOrder (x y : List UInt8 × Bool) : Ordering :=
  match bytesCompare x.1 y.1 with
  | .eq => if x.2 = y.2 then .eq else if x.2 then .gt else .lt
  | o => o

/-- The lexicographic order on lists of dimensions. -/
def dimsLex : List (List UInt8 × Bool) → List (List UInt8 × Bool) → Ordering
  | [], [] => .eq
  | [], _ :: _ => .lt
  | _ :: _, [] => .gt
  | x :: xs, y :: ys => match dimOrder x y with
    | .eq => dimsLex xs ys
    | o => o

/-- Dimension `dim` of a key: its bytes and whether its NEXT flag is set. -/
def VlBkey.dimView (key : VlBkey) (dim : Nat) : List UInt8 × Bool :=
  (key.dimBytes dim, castleObjectBtreeKeyDimFlagsGet key dim &&& keyDimensionNextFlag ≠ 0)

/-- The dimensions of a key, in order. -/
def VlBkey.view (key : VlBkey) : List (List UInt8 × Bool) :=
  (List.range key.nrDims).map key.dimView

/-- The intended order on B-tree keys: dimension count, then dimensions lexicographically. -/
def btreeKeyOrder (key1 key2 : VlBkey) : Ordering :=
  if key1.nrDims < key2.nrDims then .lt
  else if key2.nrDims < key1.nrDims then .gt
  else dimsLex key1.view key2.view

/-- The order on object keys: dimension by dimension, each bytewise. -/
def okeyOrder : VlOkey → VlOkey → Ordering
  | [], [] => .eq
  | [], _ :: _ => .lt
  | _ :: _, [] => .gt
  | x :: xs, y :: ys => match bytesCompare x y with
    | .eq => okeyOrder xs ys
    | o => o

/-- What the code computes on one dimension: its place in the order, except that two
identical dimensions that both carry NEXT stop it (`none`, the `BUG_ON`). -/
def dimCmp (x y : List UInt8 × Bool) : Option Ordering :=
  if x = y ∧ x.2 then none else some (dimOrder x y)

/-- What the code computes on dimension lists: `dimCmp` dimension by dimension up to the first
that differs. -/
def dimsCmp : List (List UInt8 × Bool) → List (List UInt8 × Bool) → Option Ordering
  | x :: xs, y :: ys => (dimCmp x y).bind fun o => if o = .eq then dimsCmp xs ys else some o
  | _, _ => some .eq

/-! ## Byte strings -/

theorem bytesCompare_swap : ∀ x y : List UInt8, bytesCompare y x = (bytesCompare x y).swap
  | [], [] | [], _ :: _ | _ :: _, [] => rfl
  | a :: as, b :: bs => by
    simp only [bytesCompare]
    split_ifs <;> first | omega | simp [bytesCompare_swap as bs, Ordering.swap]

theorem bytesCompare_eq_iff : ∀ {x y : List UInt8}, bytesCompare x y = .eq ↔ x = y
  | [], [] => by simp [bytesCompare]
  | [], _ :: _ | _ :: _, [] => by simp [bytesCompare]
  | a :: as, b :: bs => by
    have hab : a = b ↔ a.toNat = b.toNat := ⟨congrArg _, UInt8.toNat.inj⟩
    simp only [bytesCompare, List.cons.injEq, hab]
    split_ifs <;> simp [bytesCompare_eq_iff] <;> omega

theorem bytesCompare_trans {x y z : List UInt8} (h1 : bytesCompare x y = .lt)
    (h2 : bytesCompare y z = .lt) : bytesCompare x z = .lt := by
  induction x generalizing y z with
  | nil => cases y <;> cases z <;> simp_all [bytesCompare]
  | cons a as ih =>
    cases y with
    | nil => simp [bytesCompare] at h1
    | cons b bs =>
      cases z with
      | nil => simp [bytesCompare] at h2
      | cons c cs =>
        simp only [bytesCompare] at h1 h2 ⊢
        split_ifs at h1 h2 ⊢ <;> first | rfl | omega | exact ih h1 h2

/-- A byte string above `y` is above any `z` that is not. -/
theorem bytesCompare_gt_of_not_gt {x y z : List UInt8} (h1 : bytesCompare x y = .gt)
    (h2 : bytesCompare z y ≠ .gt) : bytesCompare x z = .gt := by
  cases h : bytesCompare z y
  · have := bytesCompare_trans h (by rw [bytesCompare_swap, h1]; rfl)
    rw [bytesCompare_swap, this]; rfl
  · rw [bytesCompare_eq_iff.mp h, h1]
  · exact absurd h h2

theorem memcmp_swap : ∀ (a b : List UInt8) (n : Nat), memcmp b a n = -memcmp a b n
  | a :: as, b :: bs, n + 1 => by
    simp only [memcmp]
    split_ifs <;> first | omega | exact memcmp_swap as bs n
  | [], _, _ | _ :: _, [], _ | _ :: _, _ :: _, 0 => by simp [memcmp]

theorem bytesCompare_nil_take (b : List UInt8) {lb : Nat} (hb : lb ≤ b.length) :
    bytesCompare [] (b.take lb) = if 0 < lb then .lt else .eq := by
  cases lb with
  | zero => simp [bytesCompare]
  | succ lb =>
    cases b with
    | nil => simp at hb
    | cons y bs => simp [bytesCompare]

/-- Comparing the first `min la lb` bytes, then the lengths, compares the strings. -/
theorem bytesCompare_take (a b : List UInt8) {la lb : Nat} (ha : la ≤ a.length)
    (hb : lb ≤ b.length) :
    bytesCompare (a.take la) (b.take lb) =
      if memcmp a b (min la lb) ≠ 0 then signOrdering (memcmp a b (min la lb))
      else if la < lb then .lt else if lb < la then .gt else .eq := by
  induction a generalizing b la lb with
  | nil =>
    obtain rfl : la = 0 := by simpa using ha
    rw [List.take_nil, bytesCompare_nil_take b hb]
    simp [memcmp]
  | cons x as ih =>
    cases la with
    | zero =>
      rw [List.take_zero, bytesCompare_nil_take b hb]
      simp [memcmp]
    | succ la =>
      cases b with
      | nil =>
        obtain rfl : lb = 0 := by simpa using hb
        simp [bytesCompare, memcmp]
      | cons y bs =>
        cases lb with
        | zero => simp [bytesCompare, memcmp]
        | succ lb =>
          rw [Nat.succ_min_succ]
          simp only [List.take_succ_cons, bytesCompare, memcmp]
          rw [ih bs (by simpa using ha) (by simpa using hb)]
          rcases lt_trichotomy x.toNat y.toNat with h | h | h
          · have hd : (x.toNat : Int) - y.toNat < 0 := by omega
            simp [h, hd, hd.ne, signOrdering]
          · simp [h]
          · have hd : 0 < (x.toNat : Int) - y.toNat := by omega
            simp [h, hd, hd.ne', Nat.not_lt.mpr h.le, signOrdering, not_lt.mpr hd.le]

/-! ## Dimensions -/

theorem dimOrder_eq_iff {x y : List UInt8 × Bool} : dimOrder x y = .eq ↔ x = y := by
  obtain ⟨x1, x2⟩ := x
  obtain ⟨y1, y2⟩ := y
  unfold dimOrder
  split <;> rename_i h
  · rw [bytesCompare_eq_iff] at h
    subst h
    cases x2 <;> cases y2 <;> simp
  · constructor
    · intro h'; exact absurd h' (by simpa using h)
    · rintro ⟨⟩; simp [bytesCompare_eq_iff] at h

theorem dimOrder_swap (x y : List UInt8 × Bool) : dimOrder y x = (dimOrder x y).swap := by
  unfold dimOrder
  rw [bytesCompare_swap x.1 y.1]
  cases h : bytesCompare x.1 y.1 <;> simp [Ordering.swap]
  rw [bytesCompare_eq_iff] at h
  cases x.2 <;> cases y.2 <;> simp

theorem dimOrder_trans {x y z : List UInt8 × Bool} (h1 : dimOrder x y = .lt)
    (h2 : dimOrder y z = .lt) : dimOrder x z = .lt := by
  obtain ⟨x1, x2⟩ := x
  obtain ⟨y1, y2⟩ := y
  obtain ⟨z1, z2⟩ := z
  simp only [dimOrder] at *
  cases hxy : bytesCompare x1 y1 <;> cases hyz : bytesCompare y1 z1 <;>
    simp only [hxy, hyz] at h1 h2 <;> try contradiction
  · rw [bytesCompare_trans hxy hyz]
  · rw [← bytesCompare_eq_iff.1 hyz, hxy]
  · rw [bytesCompare_eq_iff.1 hxy, hyz]
  · cases x2 <;> cases y2 <;> cases z2 <;> simp at h1 h2

theorem signOrdering_eq_eq {c : Int} : signOrdering c = .eq ↔ c = 0 := by
  unfold signOrdering; split_ifs <;> simp <;> omega

theorem signOrdering_eq_lt {c : Int} : signOrdering c = .lt ↔ c < 0 := by
  unfold signOrdering; split_ifs <;> simp <;> omega

theorem signOrdering_neg (c : Int) : signOrdering (-c) = (signOrdering c).swap := by
  unfold signOrdering; split_ifs <;> first | rfl | omega

/-! ## One dimension -/

/-- `castle_object_key_dim_compare` computes `dimCmp` on the bytes it is told to compare and
the NEXT bits of the flags. -/
theorem castleObjectKeyDimCompare_view (a b : List UInt8) {la lb : Nat} (fa fb : Nat)
    (ha : la ≤ a.length) (hb : lb ≤ b.length) :
    (castleObjectKeyDimCompare a la fa b lb fb).map signOrdering =
      dimCmp (a.take la, fa &&& keyDimensionNextFlag ≠ 0) (b.take lb, fb &&& keyDimensionNextFlag ≠ 0) := by
  have hmin : (if la > lb then lb else la) = min la lb := by split <;> omega
  have htake : a.take la = b.take lb ↔ memcmp a b (min la lb) = 0 ∧ la = lb := by
    rw [← bytesCompare_eq_iff, bytesCompare_take a b ha hb]
    split_ifs <;> simp_all [signOrdering_eq_eq] <;> omega
  simp only [castleObjectKeyDimCompare, dimCmp, dimOrder, bytesCompare_take a b ha hb, hmin,
    Prod.mk.injEq, htake]
  generalize fa &&& keyDimensionNextFlag = na
  generalize fb &&& keyDimensionNextFlag = nb
  by_cases hm : memcmp a b (min la lb) = 0
  · by_cases hl : la = lb
    · subst hl
      rw [min_self] at hm
      by_cases hna : na = 0 <;> by_cases hnb : nb = 0 <;> simp [hm, hna, hnb, signOrdering]
    · rcases Nat.lt_or_gt_of_ne hl with h | h <;>
        simp [hm, hl, h, Nat.not_lt.mpr h.le, signOrdering]
  · have hs : signOrdering (memcmp a b (min la lb)) ≠ .eq := mt signOrdering_eq_eq.1 hm
    simp only [hm, if_false, ne_eq, not_false_eq_true, if_true, Option.map_some', false_and,
      Option.some_inj]

theorem VlBkey.WellFormed.dimLength_le {key : VlBkey} (hk : key.WellFormed) {dim : Nat}
    (h : dim < key.nrDims) :
    castleObjectBtreeKeyDimLength key dim ≤ (castleObjectBtreeKeyDimGet key dim).length := by
  have hpo := hk.payloadOffset_le h
  have hend : key.endOffsetAt dim ≤ key.length + 4 := by
    unfold VlBkey.endOffsetAt
    split
    · exact hk.offsetAt_le_length ‹_›
    · exact le_rfl
  have := hk.payload_length
  simp only [castleObjectBtreeKeyDimLength, castleObjectBtreeKeyDimGet, List.length_drop]
  omega

theorem btreeKeyDimCompare_view {key1 key2 : VlBkey} (hk1 : key1.WellFormed)
    (hk2 : key2.WellFormed) {dim : Nat} (h1 : dim < key1.nrDims) (h2 : dim < key2.nrDims) :
    (btreeKeyDimCompare key1 key2 dim).map signOrdering =
      dimCmp (key1.dimView dim) (key2.dimView dim) :=
  castleObjectKeyDimCompare_view _ _ _ _ (hk1.dimLength_le h1) (hk2.dimLength_le h2)

/-! ## Whole keys -/

section views

variable {key1 key2 : VlBkey} (hk1 : key1.WellFormed) (hk2 : key2.WellFormed)
include hk1 hk2

theorem castleObjectBtreeKeyCompareFrom_view {dim n : Nat} (h1 : dim + n ≤ key1.nrDims)
    (h2 : dim + n ≤ key2.nrDims) :
    (castleObjectBtreeKeyCompareFrom key1 key2 dim n).map signOrdering =
      dimsCmp ((List.range' dim n).map key1.dimView) ((List.range' dim n).map key2.dimView) := by
  induction n generalizing dim with
  | zero => rfl
  | succ n ih =>
    have hv := btreeKeyDimCompare_view hk1 hk2 (show dim < key1.nrDims by omega)
      (show dim < key2.nrDims by omega)
    simp only [castleObjectBtreeKeyCompareFrom, List.range'_succ, List.map_cons, dimsCmp]
    cases hc : btreeKeyDimCompare key1 key2 dim with
    | none => rw [hc] at hv; simp [← hv]
    | some c =>
      rw [hc] at hv
      simp only [Option.map_some'] at hv
      rw [← hv, Option.some_bind]
      by_cases hc0 : c = 0
      · subst hc0
        simpa [signOrdering] using ih (by omega) (by omega)
      · simp [hc0, signOrdering_eq_eq]

/-- `castle_object_btree_key_compare` on well-formed keys: the dimension count, then `dimsCmp`
on the dimensions. -/
theorem castleObjectBtreeKeyCompare_view :
    (castleObjectBtreeKeyCompare key1 key2).map signOrdering =
      if key1.nrDims < key2.nrDims then some .lt
      else if key2.nrDims < key1.nrDims then some .gt
      else dimsCmp key1.view key2.view := by
  unfold castleObjectBtreeKeyCompare
  split_ifs with hne hlt hgt hgt <;> try omega
  · simp [signOrdering, hlt]
  · simp [signOrdering, hgt]
  · rw [castleObjectBtreeKeyCompareFrom_view hk1 hk2 (by omega) (by omega)]
    simp only [VlBkey.view, List.range_eq_range']
    rw [show key2.nrDims = key1.nrDims by omega]

end views

/-- The compare loop returns the first non-zero comparison of a dimension. -/
theorem castleObjectBtreeKeyCompareFrom_of_first {key1 key2 : VlBkey} {d : Nat} {c : Int}
    (heq : ∀ i < d, btreeKeyDimCompare key1 key2 i = some 0)
    (hd : btreeKeyDimCompare key1 key2 d = some c) (hc : c ≠ 0) :
    ∀ {dim n : Nat}, dim ≤ d → d < dim + n → castleObjectBtreeKeyCompareFrom key1 key2 dim n = some c
  | _, 0, _, h => by omega
  | dim, n + 1, h1, h2 => by
    rcases Nat.lt_or_eq_of_le h1 with h | rfl
    · simp only [castleObjectBtreeKeyCompareFrom, heq dim h, Option.some_bind, ne_eq,
        not_true_eq_false, if_false]
      exact castleObjectBtreeKeyCompareFrom_of_first heq hd hc h (by omega)
    · simp [castleObjectBtreeKeyCompareFrom, hd, hc]

/-! ## The order on dimension lists -/

theorem dimCmp_eq_some {x y : List UInt8 × Bool} {o : Ordering} (h : dimCmp x y = some o) :
    dimOrder x y = o := by
  unfold dimCmp at h; split_ifs at h; exact Option.some_inj.mp h

theorem dimCmp_of_ne {x y : List UInt8 × Bool} (h : x ≠ y) : dimCmp x y = some (dimOrder x y) := by
  simp [dimCmp, h]

theorem dimsCmp_eq_some : ∀ {xs ys : List (List UInt8 × Bool)} {o : Ordering},
    xs.length = ys.length → dimsCmp xs ys = some o → dimsLex xs ys = o
  | [], [], _, _, h => by simpa [dimsCmp, dimsLex] using h
  | x :: xs, y :: ys, o, hl, h => by
    simp only [dimsCmp, Option.bind_eq_some] at h
    obtain ⟨o', h1, h2⟩ := h
    have := dimCmp_eq_some h1
    simp only [dimsLex, this]
    split_ifs at h2 with heq
    · subst heq; exact dimsCmp_eq_some (by simpa using hl) h2
    · cases o' <;> simp_all

theorem dimsCmp_swap : ∀ xs ys : List (List UInt8 × Bool),
    dimsCmp ys xs = (dimsCmp xs ys).map Ordering.swap
  | x :: xs, y :: ys => by
    have hc : dimCmp y x = (dimCmp x y).map Ordering.swap := by
      unfold dimCmp
      by_cases h : x = y
      · subst h
        by_cases hx : x.2 <;> simp [hx, dimOrder_eq_iff.mpr rfl, Ordering.swap]
      · simp [Ne.symm h, h, dimOrder_swap x y]
    simp only [dimsCmp, hc]
    cases dimCmp x y with
    | none => rfl
    | some o => cases o <;> simp [Ordering.swap, dimsCmp_swap xs ys]
  | [], [] | [], _ :: _ | _ :: _, [] => rfl

theorem dimsCmp_trans : ∀ {xs ys zs : List (List UInt8 × Bool)},
    dimsCmp xs ys = some .lt → dimsCmp ys zs = some .lt → dimsCmp xs zs = some .lt
  | x :: xs, y :: ys, z :: zs, h1, h2 => by
    simp only [dimsCmp, Option.bind_eq_some] at h1 h2 ⊢
    obtain ⟨o1, h1, h1'⟩ := h1
    obtain ⟨o2, h2, h2'⟩ := h2
    have hxy := dimCmp_eq_some h1
    have hyz := dimCmp_eq_some h2
    by_cases e1 : o1 = .eq <;> by_cases e2 : o2 = .eq <;> simp only [e1, e2, if_true, if_false] at h1' h2'
    · rw [e1, dimOrder_eq_iff] at hxy
      rw [e2, dimOrder_eq_iff] at hyz
      subst hxy hyz
      exact ⟨.eq, h1.trans (by rw [e1]), by simp [dimsCmp_trans h1' h2']⟩
    · rw [e1, dimOrder_eq_iff] at hxy
      subst hxy
      exact ⟨o2, h2, by simp [e2, h2']⟩
    · rw [e2, dimOrder_eq_iff] at hyz
      subst hyz
      exact ⟨o1, h1, by simp [e1, h1']⟩
    · cases h1'; cases h2'
      have hxz := dimOrder_trans hxy hyz
      have hne : x ≠ z := fun h => by subst h; simp [dimOrder_eq_iff.mpr rfl] at hxz
      exact ⟨.lt, by rw [dimCmp_of_ne hne, hxz], rfl⟩
  | [], _, _, h, _ | _ :: _, [], _, h, _ | _ :: _, _ :: _, [], _, h => by simp [dimsCmp] at h

theorem dimsLex_eq_iff : ∀ {xs ys : List (List UInt8 × Bool)}, dimsLex xs ys = .eq ↔ xs = ys
  | [], [] => by simp [dimsLex]
  | [], _ :: _ | _ :: _, [] => by simp [dimsLex]
  | x :: xs, y :: ys => by
    have hxy : x = y ↔ dimOrder x y = .eq := dimOrder_eq_iff.symm
    simp only [dimsLex, List.cons.injEq]
    cases h : dimOrder x y <;> simp_all [dimsLex_eq_iff]

theorem dimsCmp_eq_eq {xs ys : List (List UInt8 × Bool)} (hl : xs.length = ys.length)
    (h : dimsCmp xs ys = some .eq) : xs = ys :=
  dimsLex_eq_iff.mp (dimsCmp_eq_some hl h)

/-! ## Consequences for the code -/

theorem signOrdering_congr {c c' : Int} (h : signOrdering c = signOrdering c') :
    (c < 0 ↔ c' < 0) ∧ (c = 0 ↔ c' = 0) := by
  unfold signOrdering at h
  constructor <;> constructor <;> intro <;> split_ifs at h <;> omega

/-! ## Antisymmetry -/

theorem castleObjectKeyDimCompare_swap (a b : List UInt8) (la fa lb fb : Nat) :
    castleObjectKeyDimCompare b lb fb a la fa =
      (castleObjectKeyDimCompare a la fa b lb fb).map Neg.neg := by
  have hmin : (if lb > la then la else lb) = if la > lb then lb else la := by split_ifs <;> omega
  unfold castleObjectKeyDimCompare
  rw [hmin, memcmp_swap a b]
  generalize memcmp a b (if la > lb then lb else la) = m
  generalize fa &&& keyDimensionNextFlag = na
  generalize fb &&& keyDimensionNextFlag = nb
  by_cases hm : m = 0
  · subst hm
    by_cases hl : la = lb
    · subst hl
      by_cases hna : na = 0 <;> by_cases hnb : nb = 0 <;> simp [hna, hnb]
    · simp only [neg_zero, ne_eq, not_true_eq_false, if_false, hl, Ne.symm hl, not_false_eq_true,
        if_true, Option.map_some', Option.some_inj]
      split_ifs <;> first | rfl | omega
  · simp [hm]

theorem castleObjectBtreeKeyCompareFrom_swap (key1 key2 : VlBkey) (dim n : Nat) :
    castleObjectBtreeKeyCompareFrom key2 key1 dim n =
      (castleObjectBtreeKeyCompareFrom key1 key2 dim n).map Neg.neg := by
  induction n generalizing dim with
  | zero => rfl
  | succ n ih =>
    simp only [castleObjectBtreeKeyCompareFrom, btreeKeyDimCompare]
    rw [castleObjectKeyDimCompare_swap]
    cases castleObjectKeyDimCompare (castleObjectBtreeKeyDimGet key1 dim)
        (castleObjectBtreeKeyDimLength key1 dim) (castleObjectBtreeKeyDimFlagsGet key1 dim)
        (castleObjectBtreeKeyDimGet key2 dim) (castleObjectBtreeKeyDimLength key2 dim)
        (castleObjectBtreeKeyDimFlagsGet key2 dim) with
    | none => rfl
    | some c =>
      by_cases hc : c = 0
      · simp [hc, ih]
      · simp [hc]

/-- Swapping the keys negates the result, `BUG_ON` included, on any keys. -/
theorem castleObjectBtreeKeyCompare_swap (key1 key2 : VlBkey) :
    castleObjectBtreeKeyCompare key2 key1 = (castleObjectBtreeKeyCompare key1 key2).map Neg.neg := by
  unfold castleObjectBtreeKeyCompare
  by_cases hn : key1.nrDims = key2.nrDims
  · rw [if_neg (by omega), if_neg (by omega), castleObjectBtreeKeyCompareFrom_swap, hn]
  · rw [if_pos (Ne.symm hn), if_pos hn, Option.map_some', Option.some_inj]
    split_ifs <;> first | rfl | omega

theorem lt_of_nrDims_view {a b : Nat} {x : Option Ordering}
    (h : some .lt = if a < b then some .lt else if b < a then some .gt else x) :
    a < b ∨ a = b ∧ x = some .lt := by
  split_ifs at h with hab hba
  · exact Or.inl hab
  · simp at h
  · exact Or.inr ⟨by omega, h.symm⟩

section keys

variable {key1 key2 key3 : VlBkey} (hk1 : key1.WellFormed) (hk2 : key2.WellFormed)
  (hk3 : key3.WellFormed)
include hk1 hk2

/-- On well-formed keys, wherever it returns, `castle_object_btree_key_compare` has the sign
of the intended order. -/
theorem castleObjectBtreeKeyCompare_sign {c : Int}
    (h : castleObjectBtreeKeyCompare key1 key2 = some c) :
    signOrdering c = btreeKeyOrder key1 key2 := by
  have hv := castleObjectBtreeKeyCompare_view hk1 hk2
  rw [h, Option.map_some'] at hv
  unfold btreeKeyOrder
  split_ifs at hv ⊢ with hlt hgt <;> try exact Option.some_inj.mp hv
  exact (dimsCmp_eq_some (by simp [VlBkey.view]; omega) hv.symm).symm

/-- Keys the code calls equal have the same dimension count and the same dimensions. -/
theorem castleObjectBtreeKeyCompare_eq_zero (h : castleObjectBtreeKeyCompare key1 key2 = some 0) :
    key1.nrDims = key2.nrDims ∧ key1.view = key2.view := by
  have hv := castleObjectBtreeKeyCompare_view hk1 hk2
  rw [h, Option.map_some'] at hv
  split_ifs at hv with hlt hgt <;> try simp [signOrdering] at hv
  have hn : key1.nrDims = key2.nrDims := by omega
  exact ⟨hn, dimsCmp_eq_eq (by simp [VlBkey.view, hn]) hv.symm⟩

include hk3

/-- Keys the code calls equal are interchangeable on either side. -/
theorem castleObjectBtreeKeyCompare_congr_left (h : castleObjectBtreeKeyCompare key1 key2 = some 0) :
    (castleObjectBtreeKeyCompare key1 key3).map signOrdering =
      (castleObjectBtreeKeyCompare key2 key3).map signOrdering := by
  obtain ⟨hn, hv⟩ := castleObjectBtreeKeyCompare_eq_zero hk1 hk2 h
  rw [castleObjectBtreeKeyCompare_view hk1 hk3, castleObjectBtreeKeyCompare_view hk2 hk3, hn, hv]

theorem castleObjectBtreeKeyCompare_congr_right (h : castleObjectBtreeKeyCompare key2 key3 = some 0) :
    (castleObjectBtreeKeyCompare key1 key3).map signOrdering =
      (castleObjectBtreeKeyCompare key1 key2).map signOrdering := by
  obtain ⟨hn, hv⟩ := castleObjectBtreeKeyCompare_eq_zero hk2 hk3 h
  rw [castleObjectBtreeKeyCompare_view hk1 hk3, castleObjectBtreeKeyCompare_view hk1 hk2, hn, hv]

/-- Strict transitivity, with no `BUG_ON` reached between the outer keys. -/
theorem castleObjectBtreeKeyCompare_lt_trans {c1 c2 : Int}
    (h12 : castleObjectBtreeKeyCompare key1 key2 = some c1) (hc1 : c1 < 0)
    (h23 : castleObjectBtreeKeyCompare key2 key3 = some c2) (hc2 : c2 < 0) :
    ∃ c3, castleObjectBtreeKeyCompare key1 key3 = some c3 ∧ c3 < 0 := by
  have v12 := castleObjectBtreeKeyCompare_view hk1 hk2
  have v23 := castleObjectBtreeKeyCompare_view hk2 hk3
  have v13 := castleObjectBtreeKeyCompare_view hk1 hk3
  rw [h12, Option.map_some', signOrdering_eq_lt.mpr hc1] at v12
  rw [h23, Option.map_some', signOrdering_eq_lt.mpr hc2] at v23
  have : (castleObjectBtreeKeyCompare key1 key3).map signOrdering = some .lt := by
    rw [v13]
    rcases lt_of_nrDims_view v12 with h12 | ⟨e12, d12⟩ <;>
      rcases lt_of_nrDims_view v23 with h23 | ⟨e23, d23⟩
    all_goals first
      | rw [if_pos (by omega)]
      | rw [if_neg (by omega), if_neg (by omega), dimsCmp_trans d12 d23]
  obtain ⟨c3, h, hc3⟩ := Option.map_eq_some'.mp this
  exact ⟨c3, h, signOrdering_eq_lt.mp hc3⟩

/-- Transitivity: `key1 ≤ key2 ≤ key3` gives `key1 ≤ key3`, strictly unless both steps are
equalities, with no `BUG_ON` reached between the outer keys. -/
theorem castleObjectBtreeKeyCompare_le_trans {c1 c2 : Int}
    (h12 : castleObjectBtreeKeyCompare key1 key2 = some c1) (hc1 : c1 ≤ 0)
    (h23 : castleObjectBtreeKeyCompare key2 key3 = some c2) (hc2 : c2 ≤ 0) :
    ∃ c3, castleObjectBtreeKeyCompare key1 key3 = some c3 ∧ c3 ≤ 0 ∧ (c3 = 0 → c1 = 0 ∧ c2 = 0) := by
  rcases hc1.lt_or_eq with hc1 | rfl
  · rcases hc2.lt_or_eq with hc2 | rfl
    · obtain ⟨c3, h, hc3⟩ := castleObjectBtreeKeyCompare_lt_trans hk1 hk2 hk3 h12 hc1 h23 hc2
      exact ⟨c3, h, hc3.le, fun h0 => absurd h0 hc3.ne⟩
    · have h := castleObjectBtreeKeyCompare_congr_right hk1 hk2 hk3 h23
      rw [h12, Option.map_some', Option.map_eq_some'] at h
      obtain ⟨c3, h, hs⟩ := h
      have := signOrdering_congr hs
      exact ⟨c3, h, by omega, by omega⟩
  · have h := castleObjectBtreeKeyCompare_congr_left hk1 hk2 hk3 h12
    rw [h23, Option.map_some', Option.map_eq_some'] at h
    obtain ⟨c3, h, hs⟩ := h
    have := signOrdering_congr hs
    exact ⟨c3, h, by omega, by omega⟩

end keys

/-! ## Encoded object keys -/

theorem dimsCmp_unflagged : ∀ {xs ys : VlOkey}, xs.length = ys.length →
    dimsCmp (xs.map (·, false)) (ys.map (·, false)) = some (okeyOrder xs ys)
  | [], [], _ => rfl
  | x :: xs, y :: ys, hl => by
    have hx : dimCmp (x, false) (y, false) = some (bytesCompare x y) := by
      simp only [dimCmp, dimOrder, Bool.false_eq_true, and_false, ↓reduceIte]
      cases bytesCompare x y <;> rfl
    simp only [List.map_cons, dimsCmp, hx, Option.some_bind, okeyOrder]
    cases bytesCompare x y <;> simp [dimsCmp_unflagged (by simpa using hl)]

/-- An encoded object key that fits the 24-bit offset field has the object key's dimensions,
none carrying NEXT. -/
theorem castleObjectKeyConvert_view {objKey : VlOkey} (h : objKey ≠ [])
    (hfit : encodedLength objKey < 2 ^ 24) :
    ∃ key, castleObjectKeyConvert objKey = some key ∧ key.WellFormed ∧
      key.nrDims = objKey.length ∧ key.view = objKey.map (·, false) := by
  obtain ⟨key, hkey, hwf⟩ := castleObjectKeyConvert_wellFormed h hfit
  have hconv := castleObjectBtreeKeyConvert_keyConvert h hfit
  rw [hkey, Option.map_some', Option.some_inj] at hconv
  have hn : key.nrDims = objKey.length := by rw [← hconv, castleObjectBtreeKeyConvert_length]
  refine ⟨key, hkey, hwf, hn, ?_⟩
  rw [← hconv, castleObjectBtreeKeyConvert, List.map_map, VlBkey.view]
  refine List.map_congr_left fun i hi => ?_
  rw [castleObjectKeyConvert_eq h, Option.some_inj] at hkey
  subst hkey
  have hflag := @constructKey_flags_rest objKey.length (vlBkeyHeaderSize + 4 * objKey.length) [] []
    objKey i (Nat.zero_le i)
    (by simpa [constructKey] using List.mem_range.mp hi)
  simp [VlBkey.dimView, hflag]

/-- Encoded object keys with the same number of dimensions compare as the object keys, when
their encodings fit the 24-bit offset field. -/
theorem castleObjectBtreeKeyCompare_okey {objKey1 objKey2 : VlOkey} (h : objKey1 ≠ [])
    (hl : objKey1.length = objKey2.length) (hfit1 : encodedLength objKey1 < 2 ^ 24)
    (hfit2 : encodedLength objKey2 < 2 ^ 24) :
    ∃ key1 key2 c, castleObjectKeyConvert objKey1 = some key1 ∧
      castleObjectKeyConvert objKey2 = some key2 ∧
      castleObjectBtreeKeyCompare key1 key2 = some c ∧ signOrdering c = okeyOrder objKey1 objKey2 := by
  have h2 : objKey2 ≠ [] := by rintro rfl; exact h (List.eq_nil_of_length_eq_zero hl)
  obtain ⟨key1, hk1, hwf1, hn1, hv1⟩ := castleObjectKeyConvert_view h hfit1
  obtain ⟨key2, hk2, hwf2, hn2, hv2⟩ := castleObjectKeyConvert_view h2 hfit2
  have hv := castleObjectBtreeKeyCompare_view hwf1 hwf2
  rw [hn1, hn2, hv1, hv2, hl, if_neg (lt_irrefl _), if_neg (lt_irrefl _),
    dimsCmp_unflagged hl, Option.map_eq_some'] at hv
  obtain ⟨c, hc, hs⟩ := hv
  exact ⟨key1, key2, c, hk1, hk2, hc, hs⟩

/-! ## The comparison laws -/

/-- The comparison laws: on well-formed keys, wherever the code returns, its result has the
sign of the intended order; swapping the keys negates it; it is transitive; and encoded object
keys with as many dimensions compare as the object keys, when their encodings fit the 24-bit
offset field. -/
theorem btree_key_compare_lexicographic :
    (∀ (key1 key2 : VlBkey) (c : Int), key1.WellFormed → key2.WellFormed →
      castleObjectBtreeKeyCompare key1 key2 = some c → signOrdering c = btreeKeyOrder key1 key2) ∧
    (∀ key1 key2 : VlBkey,
      castleObjectBtreeKeyCompare key2 key1 = (castleObjectBtreeKeyCompare key1 key2).map Neg.neg) ∧
    (∀ (key1 key2 key3 : VlBkey) (c1 c2 : Int), key1.WellFormed → key2.WellFormed →
      key3.WellFormed → castleObjectBtreeKeyCompare key1 key2 = some c1 → c1 ≤ 0 →
      castleObjectBtreeKeyCompare key2 key3 = some c2 → c2 ≤ 0 →
      ∃ c3, castleObjectBtreeKeyCompare key1 key3 = some c3 ∧ c3 ≤ 0 ∧
        (c3 = 0 → c1 = 0 ∧ c2 = 0)) ∧
    (∀ objKey1 objKey2 : VlOkey, objKey1 ≠ [] → objKey1.length = objKey2.length →
      encodedLength objKey1 < 2 ^ 24 → encodedLength objKey2 < 2 ^ 24 →
      ∃ key1 key2 c, castleObjectKeyConvert objKey1 = some key1 ∧
        castleObjectKeyConvert objKey2 = some key2 ∧
        castleObjectBtreeKeyCompare key1 key2 = some c ∧ signOrdering c = okeyOrder objKey1 objKey2) :=
  ⟨fun _ _ _ hk1 hk2 h => castleObjectBtreeKeyCompare_sign hk1 hk2 h,
    castleObjectBtreeKeyCompare_swap,
    fun _ _ _ _ _ hk1 hk2 hk3 h12 hc1 h23 hc2 =>
      castleObjectBtreeKeyCompare_le_trans hk1 hk2 hk3 h12 hc1 h23 hc2,
    fun _ _ h hl hfit1 hfit2 => castleObjectBtreeKeyCompare_okey h hl hfit1 hfit2⟩

/-- The laws at two encoded keys of two one-byte dimensions, `[[3], [3]]` and `[[3], [4]]`,
which compare below zero and sort first by their second dimension; and at the encodings of
`[[1], [2]]` and `[[1], [2, 0]]`: the first sorts first. -/
theorem btree_key_compare_lexicographic_example :
    castleObjectBtreeKeyCompare ⟨22, 2, [6144, 6400], [3, 3]⟩ ⟨22, 2, [6144, 6400], [3, 4]⟩ =
        some (-1) ∧
      signOrdering (-1) = btreeKeyOrder ⟨22, 2, [6144, 6400], [3, 3]⟩ ⟨22, 2, [6144, 6400], [3, 4]⟩ ∧
      ∃ key1 key2 c, castleObjectKeyConvert [[1], [2]] = some key1 ∧
        castleObjectKeyConvert [[1], [2, 0]] = some key2 ∧
        castleObjectBtreeKeyCompare key1 key2 = some c ∧ c < 0 := by
  have hc : castleObjectBtreeKeyCompare ⟨22, 2, [6144, 6400], [3, 3]⟩
      ⟨22, 2, [6144, 6400], [3, 4]⟩ = some (-1) := by decide
  obtain ⟨key1, key2, c, h1, h2, hc', hs⟩ :=
    btree_key_compare_lexicographic.2.2.2 [[1], [2]] [[1], [2, 0]] (by decide) rfl (by decide)
      (by decide)
  exact ⟨hc, btree_key_compare_lexicographic.1 _ _ _ (by decide) (by decide) hc,
    key1, key2, c, h1, h2, hc', signOrdering_eq_lt.mp (hs.trans (by decide))⟩

theorem memcmp_zero (a b : List UInt8) : memcmp a b 0 = 0 := by
  cases a <;> cases b <;> rfl

/-- An object key whose first dimension is `2 ^ 24` zero bytes: its encoding writes the second
dimension's offset `2 ^ 24 + 24` into the 24-bit field as `24`. -/
def overflowOkey : VlOkey := [List.replicate (2 ^ 24) 0, [1]]

/-- The encoding of `overflowOkey` decodes its first dimension as empty: it sorts before
the encoding of `[[0], [1]]`, though `overflowOkey` sorts after `[[0], [1]]`. -/
theorem btree_key_compare_encode_overflow :
    ¬ ((∀ (key1 key2 : VlBkey) (c : Int), key1.WellFormed → key2.WellFormed →
        castleObjectBtreeKeyCompare key1 key2 = some c → signOrdering c = btreeKeyOrder key1 key2) ∧
      (∀ key1 key2 : VlBkey,
        castleObjectBtreeKeyCompare key2 key1 = (castleObjectBtreeKeyCompare key1 key2).map Neg.neg) ∧
      (∀ (key1 key2 key3 : VlBkey) (c1 c2 : Int), key1.WellFormed → key2.WellFormed →
        key3.WellFormed → castleObjectBtreeKeyCompare key1 key2 = some c1 → c1 ≤ 0 →
        castleObjectBtreeKeyCompare key2 key3 = some c2 → c2 ≤ 0 →
        ∃ c3, castleObjectBtreeKeyCompare key1 key3 = some c3 ∧ c3 ≤ 0 ∧
          (c3 = 0 → c1 = 0 ∧ c2 = 0)) ∧
      (∀ objKey1 objKey2 : VlOkey, objKey1 ≠ [] → objKey1.length = objKey2.length →
        ∃ key1 key2 c, castleObjectKeyConvert objKey1 = some key1 ∧
          castleObjectKeyConvert objKey2 = some key2 ∧
          castleObjectBtreeKeyCompare key1 key2 = some c ∧
          signOrdering c = okeyOrder objKey1 objKey2)) := by
  rintro ⟨-, -, -, h⟩
  obtain ⟨key1, key2, c, h1, h2, hc, hs⟩ := h overflowOkey [[0], [1]] (List.cons_ne_nil _ _) rfl
  rw [@castleObjectKeyConvert_eq overflowOkey (List.cons_ne_nil _ _),
    Option.some_inj] at h1
  rw [castleObjectKeyConvert_eq (List.cons_ne_nil _ _), Option.some_inj] at h2
  subst h1 h2
  have hoff0 := @constructKey_offsetAt_rest_mod 2 (vlBkeyHeaderSize + 4 * 2) [] [] overflowOkey 0
    (Nat.zero_le 0) (by decide)
  have hoff1 := @constructKey_offsetAt_rest_mod 2 (vlBkeyHeaderSize + 4 * 2) [] [] overflowOkey 1
    (Nat.zero_le 1) (by decide)
  have hpre : prefixLength overflowOkey 1 = 2 ^ 24 := by
    rw [prefixLength, overflowOkey, List.take_succ_cons, List.take_zero, List.map_singleton,
      List.sum_singleton, List.length_replicate]
  rw [show 1 - ([] : List Nat).length = 1 from rfl, hpre] at hoff1
  have hlen : castleObjectBtreeKeyDimLength (constructKey 2 (vlBkeyHeaderSize + 4 * 2) [] []
      overflowOkey) 0 = 0 := by
    rw [castleObjectBtreeKeyDimLength, VlBkey.endOffsetAt, if_pos (by decide)]
    exact Nat.sub_eq_zero_of_le (by rw [hoff0, hoff1]; decide)
  have hord : okeyOrder overflowOkey [[0], [1]] = .gt := by
    rw [overflowOkey, show 2 ^ 24 = 2 ^ 24 - 1 + 1 from rfl, List.replicate_succ]
    simp [okeyOrder, bytesCompare]
  have hdim : btreeKeyDimCompare (constructKey 2 (vlBkeyHeaderSize + 4 * 2) [] [] overflowOkey)
      (constructKey 2 (vlBkeyHeaderSize + 4 * 2) [] [] [[0], [1]]) 0 = some (-1) := by
    rw [btreeKeyDimCompare, hlen, show castleObjectBtreeKeyDimLength
      (constructKey 2 (vlBkeyHeaderSize + 4 * 2) [] [] [[0], [1]]) 0 = 1 from rfl,
      castleObjectKeyDimCompare, if_neg (show ¬ (0 : Nat) > 1 by decide), memcmp_zero,
      if_neg (show ¬ (0 : Int) ≠ 0 by decide), if_pos (show (0 : Nat) ≠ 1 by decide),
      if_neg (show ¬ (0 : Nat) > 1 by decide)]
  change castleObjectBtreeKeyCompare (constructKey 2 (vlBkeyHeaderSize + 4 * 2) [] [] overflowOkey)
    (constructKey 2 (vlBkeyHeaderSize + 4 * 2) [] [] [[0], [1]]) = some c at hc
  rw [castleObjectBtreeKeyCompare, if_neg (by decide),
    show (constructKey 2 (vlBkeyHeaderSize + 4 * 2) [] [] overflowOkey).nrDims = 1 + 1 from rfl,
    castleObjectBtreeKeyCompareFrom, hdim, Option.some_bind, if_pos (by decide),
    Option.some_inj] at hc
  rw [← hc, hord] at hs
  exact absurd hs (by decide)


end Objects
end Castle
