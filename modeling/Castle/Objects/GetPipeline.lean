import Castle.Objects.Stream

/-!
# The get pipeline: windows pinned, read and released

`Castle.Objects.Stream` models what a get sends the client; this module follows what it does to
the cache on the way.  `castle_object_get_continue` gets the cache block of the next window and
locks it (a *pin*), records it in the call, and only then unlocks and puts the window the call
held before (a *release*).  If the new window is not up to date it submits a read, and
`castle_object_get_io_end` queues `__castle_object_get_complete` when the read completes, well
or not; otherwise it runs `__castle_object_get_complete` at once.  That answers the client, with
`-EIO` if the window is not up to date, and either releases the window and frees the bio, or
calls `castle_object_get_continue` for the window ten blocks on.

How each window's read turns out (in the cache, read well, read badly) is chosen by the
environment: it is the parameter `reads`.

Since the next window is locked before the previous one is unlocked, a get holds two windows
between the two acts.  It holds exactly one whenever it submits a read or replies, releases every
window it pins, and after a failed read sends one `-EIO` reply and pins nothing more
(`get_pins_at_most_two_windows`).  When no read fails, its replies are those of the reply-level
model `Castle.Objects.castleObjectGetComplete` (`get_io_refines_replies`).
-/

namespace Castle
namespace Objects

/-- `-EIO`. -/
def eio : Int := -5

/-- The error a reply carries. -/
def Reply.err : Reply → Int
  | .start err _ _ | .cont err _ _ => err

@[simp] theorem Reply.err_start (err : Int) (length : Nat) (bytes : List UInt8) :
    (Reply.start err length bytes).err = err := rfl

@[simp] theorem Reply.err_cont (err : Int) (bytes : List UInt8) (last : Bool) :
    (Reply.cont err bytes last).err = err := rfl

namespace Pipeline

/-- What `castle_rxrpc_get_call_get` and `_set` keep for a get: the window held, its length in
bytes, the bytes of the value after it, and whether no reply has been sent yet. -/
structure GetCall where
  c2b : Option C2b
  dataC2bLength : Nat
  dataLength : Nat
  first : Bool
deriving DecidableEq, Repr

/-- How a window's read turns out: its cache block is already up to date, or a read is submitted
and `castle_object_get_io_end` is called with `uptodate` set, or not. -/
inductive WindowRead
  | cached
  | readOk
  | readFail
deriving DecidableEq, Repr

/-- Whether the window is up to date when `__castle_object_get_complete` looks at it. -/
def WindowRead.uptodate : WindowRead → Bool
  | .cached | .readOk => true
  | .readFail => false

@[simp] theorem WindowRead.uptodate_eq_false {r : WindowRead} :
    r.uptodate = false ↔ r = .readFail := by
  cases r <;> simp [WindowRead.uptodate]

/-- What a get does that the cache or the client sees: `castle_cache_block_get` and `lock_c2b` of
a window, `unlock_c2b` and `put_c2b` of one, `submit_c2b(READ, ...)`, a reply, and
`castle_utils_bio_free`. -/
inductive GetAct
  | pin (c2b : C2b)
  | release (c2b : C2b)
  | submit (c2b : C2b)
  | reply (r : Reply)
  | bioFree
deriving DecidableEq, Repr

/-- The window an act pins. -/
@[simp] def GetAct.pinned : GetAct → Option C2b
  | .pin c2b => some c2b
  | _ => none

/-- The window an act releases. -/
@[simp] def GetAct.released : GetAct → Option C2b
  | .release c2b => some c2b
  | _ => none

/-- The reply an act sends. -/
@[simp] def GetAct.replied : GetAct → Option Reply
  | .reply r => some r
  | _ => none

section

variable (blkSize : Nat)

/-- The reply `__castle_object_get_complete` sends from an up-to-date window of `dataC2bLength`
bytes with `dataLength` bytes of the value after it: `castle_rxrpc_get_reply_start` announcing the
whole length the first time, `castle_rxrpc_get_reply_continue` after, last when nothing is left. -/
def dataReply (first : Bool) (buffer : List UInt8) (dataC2bLength dataLength : Nat) : Reply :=
  if first then .start 0 (dataC2bLength + dataLength) buffer else .cont 0 buffer (dataLength == 0)

/-- The reply to a window that is not up to date. -/
def failReply (first : Bool) : Reply := if first then .start eio 0 [] else .cont eio [] true

/-- What `castle_object_get_continue` does to the cache before `__castle_object_get_complete` runs
on `c2b`: it pins `c2b`, releases the window `old` the call held, and submits a read of `c2b`
unless it is in the cache. -/
def openActs (old : Option C2b) (c2b : C2b) (read : WindowRead) : List GetAct :=
  .pin c2b :: old.toList.map .release ++ if read = .cached then [] else [.submit c2b]

/-- `__castle_object_get_complete` on the call's window, up to date or not: the acts to the end of
the get, or the reply and the call, window and length it calls `castle_object_get_continue` with.
`none` is the `BUG_ON`, or a call that holds no window. -/
def castleObjectGetCompleteWork (st : Store) (call : GetCall) (uptodate : Bool) :
    Option (List GetAct × Option (GetCall × Cdb × Nat)) :=
  call.c2b.bind fun c2b =>
  if !uptodate then some ([.reply (failReply call.first), .release c2b, .bioFree], none) else
  let reply := GetAct.reply (dataReply call.first
    (st.read c2b.cdb.disk (c2b.cdb.block * blkSize) call.dataC2bLength)
    call.dataC2bLength call.dataLength)
  if call.dataLength = 0 then some ([reply, .release c2b, .bioFree], none) else
  if call.dataC2bLength ≠ objIoMaxBufferSize * blkSize then none else
  some ([reply], some ({ call with first := false },
    ⟨c2b.cdb.disk, c2b.cdb.block + objIoMaxBufferSize⟩, call.dataLength))

/-- `castle_object_get_continue` for `dataLength` bytes from `dataCdb`, window `k` of the value,
and `__castle_object_get_complete` on each window it pins once the window's read has turned out
as `reads` says (at once if it is cached, from `castle_object_get_io_end` otherwise): the acts of
the get to its end.  `none` is a `BUG_ON` or the fuel running out. -/
def castleObjectGetContinue (st : Store) (reads : Nat → WindowRead) :
    Nat → Nat → GetCall → Cdb → Nat → Option (List GetAct)
  | 0, _, _, _, _ => none
  | fuel + 1, k, call, dataCdb, dataLength =>
    if dataLength ≠ call.dataLength then none else
    if call.c2b.any fun old => old.cdb.disk ≠ dataCdb.disk ∧
        old.cdb.block + objIoMaxBufferSize ≠ dataCdb.block then none else
    let nrBlocks := nrBlocksFor blkSize dataLength
    let nrBlocks' := if nrBlocks > objIoMaxBufferSize then objIoMaxBufferSize else nrBlocks
    let dataC2bLength := if nrBlocks > objIoMaxBufferSize then nrBlocks' * blkSize else dataLength
    let c2b : C2b := ⟨dataCdb, nrBlocks'⟩
    let acts := openActs call.c2b c2b (reads k)
    (castleObjectGetCompleteWork blkSize st
        ⟨some c2b, dataC2bLength, dataLength - dataC2bLength, call.first⟩ (reads k).uptodate).bind
      fun
      | (acts', none) => some (acts ++ acts')
      | (acts', some (call', dataCdb', dataLength')) =>
        (castleObjectGetContinue st reads fuel (k + 1) call' dataCdb' dataLength').map
          (acts ++ acts' ++ ·)

/-- `castle_object_get_complete` on the error and the value tuple the DA lookup returned, the
windows of an on-disk value read as `reads` says: the acts of the get to its end (each window a
byte at least, so `length + 1` windows are enough). -/
def castleObjectGetComplete (st : Store) (reads : Nat → WindowRead) (err : Int) (cvt : Cvt) :
    Option (List GetAct) :=
  if err ≠ 0 then some [.reply (.start err 0 []), .bioFree] else
  match cvt with
  | .invalid | .tombstone => some [.reply (.start err 0 []), .bioFree]
  | .inline length val => some [.reply (.start 0 length val), .bioFree]
  | .ondisk length cdb =>
    castleObjectGetContinue blkSize st reads (length + 1) 0 ⟨none, 0, length, true⟩ cdb length

end

/-! ## Windows held -/

/-- The change an act makes to the number of windows the get holds pinned and locked. -/
@[simp] def GetAct.held : GetAct → Int
  | .pin _ => 1
  | .release _ => -1
  | _ => 0

/-- Whether the get makes the act on the one window it should then hold: a read submitted, or a
reply. -/
@[simp] def GetAct.onWindow : GetAct → Bool
  | .submit _ | .reply _ => true
  | _ => false

/-- The windows pinned and not yet released after `acts`. -/
def heldCount (acts : List GetAct) : Int := (acts.map GetAct.held).sum

/-- Along `acts`, from `c` windows held: before each act and at the end the get holds between none
and two windows, and exactly one before a read submitted or a reply. -/
def HeldWithin (c : Int) (acts : List GetAct) : Prop :=
  ∀ n, 0 ≤ c + heldCount (acts.take n) ∧ c + heldCount (acts.take n) ≤ 2 ∧
    ∀ a ∈ acts[n]?, a.onWindow → c + heldCount (acts.take n) = 1

@[simp] theorem heldCount_nil : heldCount [] = 0 := rfl

@[simp] theorem heldCount_cons (a : GetAct) (acts : List GetAct) :
    heldCount (a :: acts) = a.held + heldCount acts := by
  simp [heldCount]

/-- Pins less releases. -/
theorem heldCount_eq (acts : List GetAct) :
    heldCount acts = (acts.filterMap GetAct.pinned).length - (acts.filterMap GetAct.released).length := by
  induction acts with
  | nil => rfl
  | cons a acts ih => cases a <;> simp [ih] <;> omega

@[simp] theorem heldWithin_nil {c : Int} : HeldWithin c [] ↔ 0 ≤ c ∧ c ≤ 2 :=
  ⟨fun h => by simpa using h 0, fun h n => by simpa using h⟩

@[simp] theorem heldWithin_cons {c : Int} {a : GetAct} {acts : List GetAct} :
    HeldWithin c (a :: acts) ↔
      (0 ≤ c ∧ c ≤ 2 ∧ (a.onWindow → c = 1)) ∧ HeldWithin (c + a.held) acts := by
  constructor
  · intro h
    exact ⟨by simpa using h 0, fun n => by simpa [add_assoc] using h (n + 1)⟩
  · rintro ⟨h0, h⟩ (_ | n)
    · simpa using h0
    · simpa [add_assoc] using h n

section openActs
variable (old : Option C2b) (c2b : C2b) (read : WindowRead)

@[simp] theorem openActs_pinned : (openActs old c2b read).filterMap GetAct.pinned = [c2b] := by
  cases old <;> by_cases h : read = .cached <;> simp [openActs, h]

@[simp] theorem openActs_released : (openActs old c2b read).filterMap GetAct.released = old.toList := by
  cases old <;> by_cases h : read = .cached <;> simp [openActs, h]

@[simp] theorem openActs_replied : (openActs old c2b read).filterMap GetAct.replied = [] := by
  cases old <;> by_cases h : read = .cached <;> simp [openActs, h]

/-- Through its opening acts a get goes from the window it held, if any, to the new one alone. -/
@[simp] theorem heldWithin_openActs (rest : List GetAct) :
    HeldWithin old.toList.length (openActs old c2b read ++ rest) ↔ HeldWithin 1 rest := by
  cases old <;> by_cases h : read = .cached <;> simp [openActs, h]

end openActs

@[simp] theorem dataReply_err (first : Bool) (buffer : List UInt8) (dataC2bLength dataLength : Nat) :
    (dataReply first buffer dataC2bLength dataLength).err = 0 := by
  cases first <;> rfl

@[simp] theorem failReply_err (first : Bool) : (failReply first).err = eio := by
  cases first <;> rfl

/-- The window `castle_object_get_continue` pins for `dataLength` bytes from `dataCdb`. -/
def window (blkSize : Nat) (dataCdb : Cdb) (dataLength : Nat) : C2b :=
  let nrBlocks := nrBlocksFor blkSize dataLength
  ⟨dataCdb, if nrBlocks > objIoMaxBufferSize then objIoMaxBufferSize else nrBlocks⟩

section window
variable {blkSize : Nat} (st : Store) (reads : Nat → WindowRead) {fuel k : Nat} {call : GetCall}
  {cdb : Cdb}

/-- A window whose read fails: `-EIO`, and the window released. -/
theorem castleObjectGetContinue_fail (hold : ∀ o ∈ call.c2b, o.cdb.disk = cdb.disk)
    (hk : (reads k).uptodate = false) :
    castleObjectGetContinue blkSize st reads (fuel + 1) k call cdb call.dataLength =
      some (openActs call.c2b (window blkSize cdb call.dataLength) (reads k) ++
        [.reply (failReply call.first), .release (window blkSize cdb call.dataLength), .bioFree]) := by
  rcases call with ⟨_ | o, d, len, first⟩ <;> (try simp at hold) <;>
    simp [castleObjectGetContinue, castleObjectGetCompleteWork, window, hk, hold]

/-- The last window, read well: its bytes, and the window released. -/
theorem castleObjectGetContinue_last (hB : 0 < blkSize) (hold : ∀ o ∈ call.c2b, o.cdb.disk = cdb.disk)
    (hk : (reads k).uptodate = true) (hpos : 0 < call.dataLength)
    (hlast : call.dataLength ≤ 10 * blkSize) :
    castleObjectGetContinue blkSize st reads (fuel + 1) k call cdb call.dataLength =
      some (openActs call.c2b (window blkSize cdb call.dataLength) (reads k) ++
        [.reply (dataReply call.first (st.read cdb.disk (cdb.block * blkSize) call.dataLength)
          call.dataLength 0), .release (window blkSize cdb call.dataLength), .bioFree]) := by
  have hnr : ¬ 10 < nrBlocksFor blkSize call.dataLength :=
    mt (lt_nrBlocksFor_iff hB (by decide)).mp (by omega)
  rcases call with ⟨_ | o, d, len, first⟩ <;> (try simp at hold) <;>
    simp [castleObjectGetContinue, castleObjectGetCompleteWork, window, objIoMaxBufferSize, hk,
      hold, hnr, Nat.sub_eq_zero_of_le hlast]

/-- A full window read well, then the rest of the value from ten blocks on. -/
theorem castleObjectGetContinue_next (hB : 0 < blkSize) (hold : ∀ o ∈ call.c2b, o.cdb.disk = cdb.disk)
    (hk : (reads k).uptodate = true) (hnext : 10 * blkSize < call.dataLength) :
    castleObjectGetContinue blkSize st reads (fuel + 1) k call cdb call.dataLength =
      (castleObjectGetContinue blkSize st reads fuel (k + 1)
          ⟨some ⟨cdb, 10⟩, 10 * blkSize, call.dataLength - 10 * blkSize, false⟩
          ⟨cdb.disk, cdb.block + 10⟩ (call.dataLength - 10 * blkSize)).map
        (openActs call.c2b ⟨cdb, 10⟩ (reads k) ++
          [.reply (dataReply call.first (st.read cdb.disk (cdb.block * blkSize) (10 * blkSize))
            (10 * blkSize) (call.dataLength - 10 * blkSize))] ++ ·) := by
  obtain ⟨old, d, len, first⟩ := call
  dsimp only at hold hnext ⊢
  have hnr : 10 < nrBlocksFor blkSize len := (lt_nrBlocksFor_iff hB (by decide)).mpr hnext
  cases old <;> (try simp at hold) <;>
    simp [castleObjectGetContinue, castleObjectGetCompleteWork, objIoMaxBufferSize, hk, hold, hnr,
      show len - 10 * blkSize ≠ 0 by omega]

end window

section runs
variable {blkSize : Nat} (st : Store) (reads : Nat → WindowRead)

theorem castleObjectGetContinue_replies (hreads : ∀ j, reads j ≠ .readFail) :
    ∀ fuel k (call : GetCall) (cdb : Cdb), (∀ o ∈ call.c2b, o.cdb.disk = cdb.disk) →
      (castleObjectGetContinue blkSize st reads fuel k call cdb call.dataLength).map
          (List.filterMap GetAct.replied) =
        Objects.castleObjectGetContinue blkSize st fuel cdb call.dataLength call.first := by
  intro fuel
  induction fuel with
  | zero => intros; rfl
  | succ fuel ih =>
    rintro k ⟨old, d, len, first⟩ cdb hold
    have hk : (reads k).uptodate = true := by
      have := hreads k
      cases h : reads k <;> simp_all [WindowRead.uptodate]
    by_cases hnr : objIoMaxBufferSize < nrBlocksFor blkSize len
    · have ih' := ih (k + 1) ⟨some ⟨cdb, objIoMaxBufferSize⟩, objIoMaxBufferSize * blkSize,
        len - objIoMaxBufferSize * blkSize, false⟩ ⟨cdb.disk, cdb.block + objIoMaxBufferSize⟩ (by simp)
      by_cases hl : len - objIoMaxBufferSize * blkSize = 0 <;> cases first <;> cases old <;>
        (try simp at hold) <;>
        simp [castleObjectGetContinue, Objects.castleObjectGetContinue, castleObjectGetCompleteWork,
          hk, hold, hnr, hl, dataReply, ← ih', Option.map_map, Function.comp_def]
    · cases old <;> (try simp at hold) <;>
        simp [castleObjectGetContinue, Objects.castleObjectGetContinue, castleObjectGetCompleteWork,
          hk, hold, hnr, dataReply]

/-- The fuel a window leaves for the rest of the value. -/
theorem windows_succ (hB : 0 < blkSize) {length : Nat} (h : 10 * blkSize < length) :
    (length - 1) / (10 * blkSize) = (length - 10 * blkSize - 1) / (10 * blkSize) + 1 := by
  rw [← Nat.add_div_right _ (by omega : 0 < 10 * blkSize)]
  congr 1
  omega

/-- From a call holding `old` (if anything) with a byte or more to go, `castle_object_get_continue`
runs to the end of the get; along the way it holds between none and two windows, exactly one at
each read and reply, and it releases `old` and then every window it pins, in order. -/
theorem castleObjectGetContinue_held (hB : 0 < blkSize) :
    ∀ fuel k (call : GetCall) (cdb : Cdb), 0 < call.dataLength →
      (call.dataLength - 1) / (10 * blkSize) < fuel → (∀ o ∈ call.c2b, o.cdb.disk = cdb.disk) →
      ∃ acts, castleObjectGetContinue blkSize st reads fuel k call cdb call.dataLength = some acts ∧
        HeldWithin call.c2b.toList.length acts ∧
        acts.filterMap GetAct.released = call.c2b.toList ++ acts.filterMap GetAct.pinned := by
  intro fuel
  induction fuel with
  | zero => intro _ _ _ _ h; exact absurd h (Nat.not_lt_zero _)
  | succ fuel ih =>
    intro k call cdb hpos hfuel hold
    cases hk : (reads k).uptodate
    · rw [castleObjectGetContinue_fail st reads hold hk]
      exact ⟨_, rfl, by simp, by simp⟩
    · by_cases hlast : call.dataLength ≤ 10 * blkSize
      · rw [castleObjectGetContinue_last st reads hB hold hk hpos hlast]
        exact ⟨_, rfl, by simp, by simp⟩
      · have hn := windows_succ hB (not_le.mp hlast)
        obtain ⟨acts, hacts, hheld, hrel⟩ := ih (k + 1)
          ⟨some ⟨cdb, 10⟩, 10 * blkSize, call.dataLength - 10 * blkSize, false⟩
          ⟨cdb.disk, cdb.block + 10⟩ (by dsimp only; omega) (by dsimp only; omega) (by simp)
        rw [castleObjectGetContinue_next st reads hB hold hk (not_le.mp hlast), hacts]
        refine ⟨_, rfl, ?_, ?_⟩
        · simpa using hheld
        · simpa using hrel

/-- The window of a value streamed from `block` that `castle_object_get_continue` pins `i`
windows on, with `i` full windows of the value's `length` bytes behind it. -/
def windowOf (blkSize disk block length i : Nat) : C2b :=
  window blkSize ⟨disk, block + 10 * i⟩ (length - i * (10 * blkSize))

/-- The window `i + 1` of a value is the window `i` of its part after the first window. -/
theorem windowOf_succ (blkSize disk block length i : Nat) :
    windowOf blkSize disk (block + 10) (length - 10 * blkSize) i =
      windowOf blkSize disk block length (i + 1) := by
  rw [windowOf, windowOf, show block + 10 + 10 * i = block + 10 * (i + 1) by omega,
    show length - 10 * blkSize - i * (10 * blkSize) = length - (i + 1) * (10 * blkSize) by
      rw [Nat.succ_mul i]; omega]

/-- Once window `j` of the value is read badly, and no window before it was, the get has pinned
windows `0` to `j` and no other, and it ends with one `-EIO` reply (the first reply if `j` is the
first window), the release of window `j` and the bio freed; every reply before it carried
data. -/
theorem castleObjectGetContinue_eio (hB : 0 < blkSize) :
    ∀ fuel k (call : GetCall) (disk block : Nat) (acts : List GetAct), 0 < call.dataLength →
      (∀ o ∈ call.c2b, o.cdb.disk = disk) →
      castleObjectGetContinue blkSize st reads fuel k call ⟨disk, block⟩ call.dataLength = some acts →
      ∀ j, j ≤ (call.dataLength - 1) / (10 * blkSize) → reads (k + j) = .readFail →
      (∀ i < j, reads (k + i) ≠ .readFail) →
      ∃ pre, acts = pre ++ [.reply (failReply (call.first && j == 0)),
          .release (windowOf blkSize disk block call.dataLength j), .bioFree] ∧
        acts.filterMap GetAct.pinned =
          (List.range (j + 1)).map (windowOf blkSize disk block call.dataLength) ∧
        ∀ r ∈ pre.filterMap GetAct.replied, r.err = 0 := by
  intro fuel
  induction fuel with
  | zero => intro _ _ _ _ _ _ _ h; cases h
  | succ fuel ih =>
    intro k call disk block acts hpos hold h j hj hfail hfirst
    cases j with
    | zero =>
      -- window `k` is window `j`: its read fails
      rw [Nat.add_zero, ← WindowRead.uptodate_eq_false] at hfail
      rw [castleObjectGetContinue_fail st reads hold hfail, Option.some_inj] at h
      subst h
      exact ⟨openActs call.c2b (window blkSize ⟨disk, block⟩ call.dataLength) (reads k),
        by simp [windowOf], by simp [windowOf, List.range_succ], by simp⟩
    | succ j =>
      -- window `k` is read well and is not the value's last
      have hk : (reads k).uptodate = true :=
        Bool.not_eq_false _ ▸ mt WindowRead.uptodate_eq_false.mp (hfirst 0 (Nat.succ_pos j))
      have hlast : 10 * blkSize < call.dataLength := by
        by_contra hlast
        have := Nat.div_eq_of_lt (show call.dataLength - 1 < 10 * blkSize by omega)
        omega
      have hn := windows_succ hB hlast
      rw [castleObjectGetContinue_next st reads hB hold hk hlast] at h
      obtain ⟨rest, hrest, rfl⟩ := Option.map_eq_some'.mp h
      obtain ⟨pre, hpre, hpins, herr⟩ := ih (k + 1) _ disk (block + 10) rest (by dsimp only; omega)
        (by simp) hrest j (by dsimp only; omega) (by rwa [Nat.add_right_comm])
        (fun i hi => by simpa [Nat.add_right_comm] using hfirst (i + 1) (by omega))
      have hw0 : windowOf blkSize disk block call.dataLength 0 = ⟨⟨disk, block⟩, 10⟩ := by
        simp [windowOf, window, objIoMaxBufferSize, (lt_nrBlocksFor_iff hB (by decide)).mpr hlast]
      dsimp only at hpre hpins
      rw [windowOf_succ, show (false && j == 0) = (call.first && (j + 1) == 0) by simp] at hpre
      refine ⟨_, by rw [hpre]; exact (List.append_assoc _ _ _).symm, ?_, ?_⟩
      · rw [List.range_succ_eq_map, List.map_cons, List.map_map, hw0]
        simpa [hpins] using fun i _ => windowOf_succ blkSize disk block call.dataLength i
      · simpa using herr

end runs

/-! ## What a get does to its windows -/

/-- A get of an on-disk value of `length > 0` bytes, whatever each window's read does, runs to its
end.  It never holds more than two windows, holds exactly one whenever it submits a read or
replies, and releases every window it pins, in the order pinned, so that it holds none at the
end.  If window `j` is the first of the value's windows whose read fails, the get has pinned
windows `0` to `j` and no other, and it ends with a single `-EIO` reply (`reply_start` if `j` is
the first window, `reply_continue` with `last` set otherwise), the release of window `j` and the
bio freed, every reply before it carrying data: it pins nothing after the failed read. -/
theorem get_pins_at_most_two_windows (blkSize : Nat) (hB : 0 < blkSize) (st : Store)
    (reads : Nat → WindowRead) (length : Nat) (cdb : Cdb) (hlen : 0 < length) :
    ∃ acts, castleObjectGetComplete blkSize st reads 0 (.ondisk length cdb) = some acts ∧
      HeldWithin 0 acts ∧ heldCount acts = 0 ∧
      acts.filterMap GetAct.released = acts.filterMap GetAct.pinned ∧
      ∀ j ≤ (length - 1) / (10 * blkSize), reads j = .readFail → (∀ i < j, reads i ≠ .readFail) →
        ∃ pre, acts = pre ++ [.reply (failReply (j == 0)),
            .release (windowOf blkSize cdb.disk cdb.block length j), .bioFree] ∧
          acts.filterMap GetAct.pinned =
            (List.range (j + 1)).map (windowOf blkSize cdb.disk cdb.block length) ∧
          ∀ r ∈ pre.filterMap GetAct.replied, r.err = 0 := by
  have hfuel : (length - 1) / (10 * blkSize) < length + 1 :=
    Nat.lt_succ_of_le ((Nat.div_le_self _ _).trans (Nat.sub_le _ _))
  obtain ⟨acts, hacts, hheld, hrel⟩ := castleObjectGetContinue_held st reads hB (length + 1) 0
    ⟨none, 0, length, true⟩ cdb hlen hfuel (by simp)
  simp only [Option.toList_none, List.length_nil, Nat.cast_zero, List.nil_append] at hheld hrel
  refine ⟨acts, hacts, hheld, by rw [heldCount_eq, hrel, sub_self], hrel,
    fun j hj hfail hfirst => ?_⟩
  simpa using castleObjectGetContinue_eio st reads hB _ 0 ⟨none, 0, length, true⟩ cdb.disk cdb.block
    acts hlen (by simp) hacts j hj (by simpa using hfail) (by simpa using hfirst)

/-- Windows of 10, 10 and 5 bytes with blocks of a byte, the second window's read failing: the get
pins the first two windows, ends with `-EIO` continuing the first reply, and holds nothing. -/
theorem get_pins_at_most_two_windows_example :
    ∃ acts, castleObjectGetComplete 1 (fun _ _ => 0)
        (fun j => if j = 1 then .readFail else .cached) 0 (.ondisk 25 ⟨0, 0⟩) = some acts ∧
      heldCount acts = 0 ∧ ∃ pre, acts = pre ++ [.reply (.cont eio [] true),
        .release ⟨⟨0, 10⟩, 10⟩, .bioFree] ∧
        acts.filterMap GetAct.pinned = [⟨⟨0, 0⟩, 10⟩, ⟨⟨0, 10⟩, 10⟩] := by
  obtain ⟨acts, h, -, hc, -, heio⟩ := get_pins_at_most_two_windows 1 (by decide) (fun _ _ => 0)
    (fun j => if j = 1 then .readFail else .cached) 25 ⟨0, 0⟩ (by decide)
  obtain ⟨pre, hpre, hpins, -⟩ := heio 1 (by decide) rfl (by decide)
  exact ⟨acts, h, hc, pre, hpre, hpins⟩

/-- Two windows held at once: with blocks of a byte, a cached value of 11 bytes is read as a window
of ten blocks and one of a block, and the second is pinned before the first is released. -/
theorem get_holds_two_windows :
    ∃ acts, castleObjectGetComplete 1 (fun _ _ => 0) (fun _ => .cached) 0 (.ondisk 11 ⟨0, 0⟩) =
        some acts ∧
      acts.take 4 = [.pin ⟨⟨0, 0⟩, 10⟩, .reply (.start 0 11 (List.replicate 10 0)),
        .pin ⟨⟨0, 10⟩, 1⟩, .release ⟨⟨0, 0⟩, 10⟩] ∧
      heldCount (acts.take 3) = 2 :=
  ⟨_, rfl, by decide, by decide⟩

/-- When no window's read fails, the replies of a get are those of the reply-level model
`Castle.Objects.castleObjectGetComplete`, for every value the DA lookup finds. -/
theorem get_io_refines_replies (blkSize : Nat) (st : Store) (reads : Nat → WindowRead) (cvt : Cvt)
    (hreads : ∀ j, reads j ≠ .readFail) :
    (castleObjectGetComplete blkSize st reads 0 cvt).map (List.filterMap GetAct.replied) =
      Objects.castleObjectGetComplete blkSize st cvt := by
  cases cvt with
  | ondisk length cdb =>
    exact castleObjectGetContinue_replies st reads hreads _ 0 ⟨none, 0, length, true⟩ cdb (by simp)
  | _ => rfl

/-- Every window read from the disk, a value of 25 bytes with blocks of a byte. -/
theorem get_io_refines_replies_example :
    (castleObjectGetComplete 1 (fun _ _ => 0) (fun _ => .readOk) 0 (.ondisk 25 ⟨0, 0⟩)).map
        (List.filterMap GetAct.replied) =
      Objects.castleObjectGetComplete 1 (fun _ _ => 0) (.ondisk 25 ⟨0, 0⟩) :=
  get_io_refines_replies 1 _ _ _ fun _ => by decide

end Pipeline
end Objects
end Castle
