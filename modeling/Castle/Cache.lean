import Mathlib

/-!
# Disk blocks and the block cache

A `c_disk_blk_t` names a block by the uuid of its slave and its index there.  The block cache
(`castle_cache.c`, outside `src/`) is modelled as the object engine uses it: as the bytes of
every slave, the byte at offset `i` of block `b` at address `b * C_BLK_SIZE + i`.  A cache block
of `n` blocks at `cdb` is the window of `n * C_BLK_SIZE` bytes from `cdb.block * C_BLK_SIZE`; a
write into it, once the block is dirtied, is what a later read of those addresses returns, and
cache blocks that overlap on disk share their bytes.
-/

namespace Castle

/-- A `c_disk_blk_t`: the slave's uuid and the block on it. -/
structure Cdb where
  disk : Nat
  block : Nat
deriving DecidableEq, Repr

/-- Modelled from the spec: the bytes of every slave, by slave uuid and byte address. -/
def Store := Nat → Nat → UInt8

namespace Store

/-- `bytes` written from address `addr` of slave `disk`. -/
def write (st : Store) (disk addr : Nat) (bytes : List UInt8) : Store := fun d a =>
  if d = disk ∧ addr ≤ a ∧ a < addr + bytes.length then bytes.getD (a - addr) 0 else st d a

/-- The `n` bytes from address `addr` of slave `disk`. -/
def read (st : Store) (disk addr n : Nat) : List UInt8 :=
  (List.range n).map fun i => st disk (addr + i)

variable (st : Store) (disk addr : Nat)

@[simp] theorem length_read (n : Nat) : (st.read disk addr n).length = n := by
  simp [read]

theorem getElem?_read {n i : Nat} (h : i < n) : (st.read disk addr n)[i]? = some (st disk (addr + i)) := by
  simp [read, h]

theorem read_add (m n : Nat) :
    st.read disk addr (m + n) = st.read disk addr m ++ st.read disk (addr + m) n := by
  simp only [read, List.range_add, List.map_append, List.map_map]
  congr 1
  exact List.map_congr_left fun i _ => by simp [Function.comp, Nat.add_assoc]

theorem write_apply_of_mem {bytes : List UInt8} {a : Nat} (h1 : addr ≤ a)
    (h2 : a < addr + bytes.length) : st.write disk addr bytes disk a = bytes.getD (a - addr) 0 := by
  simp [write, h1, h2]

theorem write_apply_of_not_mem {bytes : List UInt8} {d a : Nat}
    (h : d ≠ disk ∨ a < addr ∨ addr + bytes.length ≤ a) : st.write disk addr bytes d a = st d a := by
  simp only [write]
  rw [if_neg]
  omega

@[simp] theorem write_nil : st.write disk addr [] = st := by
  funext d a
  simp [write]

/-- Two writes end to end are one write of both. -/
theorem write_write_append (x y : List UInt8) :
    (st.write disk addr x).write disk (addr + x.length) y = st.write disk addr (x ++ y) := by
  funext d a
  simp only [write, List.length_append, List.getD_eq_getElem?_getD]
  by_cases h : d = disk ∧ addr + x.length ≤ a ∧ a < addr + x.length + y.length
  · rw [if_pos h, if_pos ⟨h.1, by omega, by omega⟩, List.getElem?_append_right (by omega), Nat.sub_sub]
  · rw [if_neg h]
    by_cases h' : d = disk ∧ addr ≤ a ∧ a < addr + x.length
    · rw [if_pos h', if_pos ⟨h'.1, h'.2.1, by omega⟩, List.getElem?_append_left (by omega)]
    · rw [if_neg h', if_neg (by omega)]

/-- Writing the next `c` bytes of `bytes` after its first `n`. -/
theorem write_take_drop_take (bytes : List UInt8) {n : Nat} (hn : n ≤ bytes.length) (c : Nat) :
    (st.write disk addr (bytes.take n)).write disk (addr + n) ((bytes.drop n).take c) =
      st.write disk addr (bytes.take (n + c)) := by
  have h := st.write_write_append disk addr (bytes.take n) ((bytes.drop n).take c)
  rwa [List.length_take_of_le hn, ← List.take_add] at h

/-- Reading back what was just written. -/
theorem read_write_self (bytes : List UInt8) :
    (st.write disk addr bytes).read disk addr bytes.length = bytes := by
  refine List.ext_getElem (by simp) fun i h _ => ?_
  simp only [length_read] at h
  simp [read, write, h]

/-- A write outside a range leaves its bytes. -/
theorem read_write_of_disjoint {bytes : List UInt8} {d a n : Nat}
    (h : d ≠ disk ∨ a + n ≤ addr ∨ addr + bytes.length ≤ a) :
    (st.write disk addr bytes).read d a n = st.read d a n :=
  List.map_congr_left fun i hi => by
    have := List.mem_range.mp hi
    exact st.write_apply_of_not_mem disk addr (by omega)

end Store

/-! ## Lists keyed by an id -/

/-- In a list whose keys are distinct, looking up an element's key finds that element. -/
theorem find?_key_of_nodup {α : Type} {key : α → Nat} {l : List α} {a : α}
    (hn : (l.map key).Nodup) (ha : a ∈ l) : l.find? (fun x => key x = key a) = some a := by
  induction l with
  | nil => cases ha
  | cons b l ih =>
    obtain ⟨hb, hn⟩ := List.nodup_cons.mp hn
    by_cases hab : a = b
    · simp [hab]
    · have hal : a ∈ l := (List.mem_cons.mp ha).resolve_left hab
      have hk : key b ≠ key a := fun he => hb (he ▸ List.mem_map_of_mem key hal)
      simp [hk, ih hn hal]

end Castle
