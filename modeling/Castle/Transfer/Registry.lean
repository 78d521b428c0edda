import Castle.Transfer.Engine

/-!
# The transfers

`castle_transfer_create` checks the version with `castle_version_snap_get`, allocates the
transfer, gives it the next `transfer_id`, collects the regions of its version
(`castle_regions_get`), puts it on `castle_transfers`, registers it in sysfs and starts its walk
(`castle_transfer_start`).  `castle_transfer_find` looks a transfer up by its id,
`castle_transfer_destroy` takes it off the list and `castle_transfers_free` destroys them all.

Several transfers run at once: the iterator callbacks and read completions of every transfer on
the list come in any order, interleaved with creations and destructions.  The model is a state
machine over the list whose calls are those functions and, for a given transfer, an event of its
engine (`Castle.Transfer.step`) over its own configuration: its direction and regions, the
slaves' target flags and the forward tree of its version.  The callbacks and the callers of
`castle_transfer_destroy` hold the transfer's structure, not its id: the model names a structure
by its handle, the number of transfers created before it.  The id is `transfer_id`, an `int`,
read modulo `2 ^ 32`, so ids repeat once it has been incremented `2 ^ 32` times.

Along every run every transfer on the list holds the regions of its own version only, and every
walk is in a state its own engine reaches from `castle_transfer_start`; until `transfer_id`
wraps the ids on the list are distinct (`transfers_walk_reachable`), so each theorem about one
engine holds of each transfer on the list whatever the interleaving.  A run crashes exactly at
a `castle_transfer_create` for a version `castle_version_snap_get` refuses or while the transfer
cannot be allocated, whose error path reads `transfer->regions` through the NULL transfer, or at
a callback that acts on a transfer already freed; no callback of a transfer on the list hits a
`BUG` (`transfers_crash_iff`).  The second happens: `castle_transfer_destroy` and
`castle_transfers_free` stop neither the iterator nor the reads, so when a transfer is freed with
a read in flight, the read's completion runs `castle_do_transfer_callback` on the freed transfer
(`freed_transfer_read_completion_crashes`).
-/

namespace Castle
namespace Transfer

deriving instance DecidableEq for State

/-! ## `castle_regions_get` -/

/-- The first loop of `castle_regions_get`: `count` the regions of the version. -/
def regionsCountLoop (version : Nat) : List Region → Nat → Nat
  | [], count => count
  | region :: regions, count =>
    regionsCountLoop version regions (if region.version = version then count + 1 else count)

/-- The second loop of `castle_regions_get`: the array it fills, `regions[i] = region` for each
region of the version, in the list's order. -/
def regionsFillLoop (version : Nat) : List Region → List Region
  | [] => []
  | region :: regions =>
    if region.version = version then region :: regionsFillLoop version regions
    else regionsFillLoop version regions

/-- `castle_regions_get` over `castle_regions.regions` (outside `src/`), with `alloc` whether
`kzalloc` gives the array: `count` or `-ENOMEM`, and the array (`none` is `NULL`). -/
def castleRegionsGet (version : Nat) (all : List Region) (alloc : Bool) :
    Int × Option (List Region) :=
  let count := regionsCountLoop version all 0
  if !alloc then (-12, none) else (count, some (regionsFillLoop version all))

theorem regionsCountLoop_eq (version : Nat) (all : List Region) (count : Nat) :
    regionsCountLoop version all count = count + (regionsFillLoop version all).length := by
  induction all generalizing count with
  | nil => rfl
  | cons region regions ih =>
    by_cases h : region.version = version
    · simp only [regionsCountLoop, regionsFillLoop, h, if_true, ih, List.length_cons]
      omega
    · simp only [regionsCountLoop, regionsFillLoop, h, if_false, ih]

theorem regionsFillLoop_eq (version : Nat) (all : List Region) :
    regionsFillLoop version all = all.filter fun region => region.version = version := by
  induction all with
  | nil => rfl
  | cons region regions ih => by_cases h : region.version = version <;> simp [regionsFillLoop, h, ih]

/-- The two loops of `castle_regions_get` agree: the count is the number of entries the second
loop fills, so the array is filled exactly, and they are the regions of the version in order. -/
theorem castleRegionsGet_spec (version : Nat) (all : List Region) :
    castleRegionsGet version all true =
      (((all.filter fun region => region.version = version).length : Int),
        some (all.filter fun region => region.version = version)) := by
  simp [castleRegionsGet, regionsCountLoop_eq, regionsFillLoop_eq]

/-! ## The list of transfers -/

/-- A `struct castle_transfer`: modelled from the spec, its handle (the structure itself, which
callers hold); and its id, version, direction, `regions` and `regions_count`, and its walk
(`phase`, `progress` and the iterator) as the engine's state. -/
structure CastleTransfer where
  handle : Nat
  id : Nat
  version : Nat
  direction : Direction
  regions : List Region
  regionsCount : Int
  walk : State
deriving DecidableEq

/-- What the engine of a transfer works on, given the slaves' target flags and the forward tree
the iterator walks for each version. -/
def CastleTransfer.config (slaveTarget : Nat → Bool) (tree : Nat → List (List Cdb))
    (transfer : CastleTransfer) : Config :=
  ⟨transfer.direction, transfer.regions, slaveTarget, tree transfer.version⟩

/-- `castle_transfers` and the static `transfer_id` of `castle_transfer_create` (how many times
it has been incremented), and, modelled from the spec, the transfers `castle_transfer_destroy`
has freed, in the state their walk was in: nothing stops their iterator or their reads. -/
structure Transfers where
  transfers : List CastleTransfer
  transferId : Nat
  freed : List CastleTransfer
deriving DecidableEq

/-- `castle_transfers_init`. -/
def Transfers.empty : Transfers := ⟨[], 0, []⟩

/-- Modelled from the spec: what one `castle_transfer_create` meets: what
`castle_version_snap_get` returns for the version, whether `kzalloc` gives the transfer and the
regions array, `castle_regions.regions`, and what `castle_sysfs_transfer_add` returns. -/
structure CreateEnv where
  snapGet : Int
  alloc : Bool
  regions : List Region
  regionsAlloc : Bool
  sysfsErr : Int

/-- `castle_transfer_create`: the transfer made, and the list after; its id is what
`transfer_id++` gives, as a 32-bit id.  `none` is the dereference of the NULL transfer on the
error path of an invalid version (`-EINVAL`) or of a failed allocation; the other error paths
return `NULL`, with `transfer_id` taken. -/
def castleTransferCreate (version : Nat) (direction : Direction) (env : CreateEnv)
    (t : Transfers) : Option (Option CastleTransfer × Transfers) :=
  if env.snapGet = -22 then none else
  if !env.alloc then none else
  let handle := t.transferId
  let t := { t with transferId := t.transferId + 1 }
  let (regionsCount, regions) := castleRegionsGet version env.regions env.regionsAlloc
  if regionsCount < 0 then some (none, t) else
  let transfer : CastleTransfer :=
    ⟨handle, handle % 2 ^ 32, version, direction, regions.getD [], regionsCount, init⟩
  if env.sysfsErr ≠ 0 then some (none, t) else
  some (some transfer, { t with transfers := transfer :: t.transfers })

/-- `castle_transfer_find`: the first transfer with that id. -/
def castleTransferFind (transfers : List CastleTransfer) (id : Nat) : Option CastleTransfer :=
  transfers.find? fun transfer => transfer.id = id

/-- Modelled from the spec: the transfer with that handle, the structure a caller holds. -/
def findHandle (transfers : List CastleTransfer) (handle : Nat) : Option CastleTransfer :=
  transfers.find? fun transfer => transfer.handle = handle

/-- `castle_transfer_destroy`: off the list, and freed. -/
def castleTransferDestroy (transfer : CastleTransfer) (t : Transfers) : Transfers :=
  { t with transfers := t.transfers.erase transfer, freed := transfer :: t.freed }

/-- The loop of `castle_transfers_free` over the transfers it found on the list. -/
def destroyAll : List CastleTransfer → Transfers → Transfers
  | [], t => t
  | transfer :: rest, t => destroyAll rest (castleTransferDestroy transfer t)

/-- `castle_transfers_free`. -/
def castleTransfersFree (t : Transfers) : Transfers :=
  destroyAll t.transfers t

/-! ## Runs of the transfers -/

/-- A call: `castle_transfer_create`, `castle_transfer_destroy` of the transfer with a handle, or
`castle_transfers_free` (their callers are outside `src/`), or an event of the engine of the
transfer with a handle: an iterator callback or the completion of one of its reads. -/
inductive Call
  | create (version : Nat) (direction : Direction) (env : CreateEnv)
  | destroy (handle : Nat)
  | free
  | walk (handle : Nat) (e : Ev)

section calls
variable (slaveTarget : Nat → Bool) (tree : Nat → List (List Cdb))

/-- One call; `none` is a crash: the NULL transfer dereferenced, a `BUG` of an engine, or a
callback that acts on a transfer already freed. -/
def callStep (t : Transfers) : Call → Option Transfers
  | .create version direction env =>
    (castleTransferCreate version direction env t).map Prod.snd
  | .destroy handle =>
    match findHandle t.transfers handle with
    | some transfer => some (castleTransferDestroy transfer t)
    | none => some t
  | .free => some (castleTransfersFree t)
  | .walk handle e =>
    match findHandle t.transfers handle with
    | some transfer =>
      (step (transfer.config slaveTarget tree) transfer.walk e).map fun walk =>
        { t with transfers := t.transfers.map fun x =>
            if x.handle = handle then { x with walk } else x }
    | none =>
      match findHandle t.freed handle with
      | some transfer =>
        if step (transfer.config slaveTarget tree) transfer.walk e = some transfer.walk then some t
        else none
      | none => some t

/-- Calls one after another. -/
def callRun : Transfers → List Call → Option Transfers
  | t, [] => some t
  | t, c :: cs => (callStep slaveTarget tree t c).bind fun t => callRun t cs

/-- What makes a call crash in a state: a `castle_transfer_create` whose error path dereferences
the NULL transfer, or a callback the engine would act on, of a transfer no longer on the list
but freed. -/
def Call.Crashes (t : Transfers) : Call → Prop
  | .create _ _ env => env.snapGet = -22 ∨ env.alloc = false
  | .walk handle e => findHandle t.transfers handle = none ∧
      ∃ x, findHandle t.freed handle = some x ∧
        step (x.config slaveTarget tree) x.walk e ≠ some x.walk
  | _ => False

end calls

/-! ## What every run keeps -/

/-- What every run keeps: every transfer on the list or freed has a handle handed out before and
no other's, and its id is that handle modulo `2 ^ 32`; every transfer on the list holds the
regions of its own version, counted in `regions_count`, and its walk is one its engine reaches
from `castle_transfer_start`. -/
structure TransfersInv (slaveTarget : Nat → Bool) (tree : Nat → List (List Cdb))
    (t : Transfers) : Prop where
  fresh : ∀ x ∈ t.transfers ++ t.freed, x.handle < t.transferId
  nodup : ((t.transfers ++ t.freed).map (·.handle)).Nodup
  ids : ∀ x ∈ t.transfers ++ t.freed, x.id = x.handle % 2 ^ 32
  regions : ∀ x ∈ t.transfers, ∀ region ∈ x.regions, region.version = x.version
  count : ∀ x ∈ t.transfers, x.regionsCount = x.regions.length
  walk : ∀ x ∈ t.transfers, Reachable (x.config slaveTarget tree) x.walk

section inv
variable {slaveTarget : Nat → Bool} {tree : Nat → List (List Cdb)} {t : Transfers}

theorem TransfersInv.nodup_transfers (hi : TransfersInv slaveTarget tree t) :
    (t.transfers.map (·.handle)).Nodup :=
  hi.nodup.sublist ((List.sublist_append_left _ _).map _)

theorem TransfersInv.of_eq {t' : Transfers} (hi : TransfersInv slaveTarget tree t)
    (hs : t'.transfers = t.transfers) (hf : t'.freed = t.freed)
    (hid : t.transferId ≤ t'.transferId) : TransfersInv slaveTarget tree t' := by
  obtain ⟨l, n, f⟩ := t'
  subst hs hf
  exact ⟨fun x hx => Nat.lt_of_lt_of_le (hi.fresh x hx) hid, hi.nodup, hi.ids, hi.regions,
    hi.count, hi.walk⟩

/-- What `castle_transfer_create` can do: crash on the NULL transfer exactly on an invalid version
or a failed allocation, and otherwise take the next `transfer_id` and either leave the list or put
on it a transfer with that handle and id, the regions of its version and its walk at the
start. -/
theorem castleTransferCreate_cases (version : Nat) (direction : Direction) (env : CreateEnv)
    (t : Transfers) :
    (castleTransferCreate version direction env t = none ↔
        env.snapGet = -22 ∨ env.alloc = false) ∧
      ∀ r, castleTransferCreate version direction env t = some r →
        r.2.transferId = t.transferId + 1 ∧ r.2.freed = t.freed ∧
          (r.2.transfers = t.transfers ∨
            r.2.transfers = ⟨t.transferId, t.transferId % 2 ^ 32, version, direction,
              env.regions.filter (fun region => region.version = version),
              (env.regions.filter (fun region => region.version = version)).length, init⟩ ::
              t.transfers) := by
  unfold castleTransferCreate
  by_cases hs : env.snapGet = -22
  · simp [hs]
  cases env.alloc
  · simp [hs]
  cases hr : env.regionsAlloc
  · simp [hs, castleRegionsGet, hr]
  have hn : ¬((env.regions.filter fun region => region.version = version).length : Int) < 0 := by
    omega
  by_cases hf : env.sysfsErr = 0
  · simp [hs, castleRegionsGet_spec, hr, hf, hn]
  · simp [hs, castleRegionsGet_spec, hr, hf, hn]

theorem TransfersInv.create (hi : TransfersInv slaveTarget tree t) {version : Nat}
    {direction : Direction} {env : CreateEnv} {r : Option CastleTransfer × Transfers}
    (h : castleTransferCreate version direction env t = some r) :
    TransfersInv slaveTarget tree r.2 := by
  obtain ⟨hid, hf, hs | hs⟩ := (castleTransferCreate_cases version direction env t).2 r h
  · exact hi.of_eq hs hf (hid ▸ Nat.le_succ _)
  · refine ⟨?_, ?_, ?_, ?_, ?_, ?_⟩ <;> rw [hs] <;> (try rw [hf])
    · rintro x (_ | ⟨_, hx⟩)
      · exact hid ▸ Nat.lt_succ_self _
      · exact hid ▸ Nat.lt_succ_of_lt (hi.fresh x hx)
    · refine List.nodup_cons.mpr ⟨fun hm => ?_, hi.nodup⟩
      obtain ⟨x, hx, he⟩ := List.mem_map.mp hm
      exact absurd (hi.fresh x hx) (by simp [he])
    · rintro x (_ | ⟨_, hx⟩)
      · rfl
      · exact hi.ids x hx
    · rintro x (_ | ⟨_, hx⟩)
      · intro region hr
        simpa using (List.mem_filter.mp hr).2
      · exact hi.regions x hx
    · rintro x (_ | ⟨_, hx⟩)
      · rfl
      · exact hi.count x hx
    · rintro x (_ | ⟨_, hx⟩)
      · exact ⟨[], rfl⟩
      · exact hi.walk x hx

theorem reachable_step {cfg : Config} {s s' : State} (hs : Reachable cfg s) {e : Ev}
    (h : step cfg s e = some s') : Reachable cfg s' :=
  let ⟨evs, hr⟩ := hs
  ⟨evs ++ [e], by simp [run_append, hr, run, h]⟩

/-- An engine event of the transfer with handle `handle` changes its walk only. -/
theorem TransfersInv.walk_step (hi : TransfersInv slaveTarget tree t) {handle : Nat}
    {x : CastleTransfer} (hx : findHandle t.transfers handle = some x) {e : Ev} {w : State}
    (hw : step (x.config slaveTarget tree) x.walk e = some w) :
    TransfersInv slaveTarget tree
      { t with transfers := t.transfers.map fun y =>
          if y.handle = handle then { y with walk := w } else y } := by
  have hids : (t.transfers.map fun y => if y.handle = handle then { y with walk := w } else y).map
      (·.handle) = t.transfers.map (·.handle) := by
    rw [List.map_map]
    exact List.map_congr_left fun y _ => by by_cases h : y.handle = handle <;> simp [h]
  -- what holds of every transfer by its handle and id alone still holds
  have hkeep {P : CastleTransfer → Prop} (hP : ∀ y : CastleTransfer, P { y with walk := w } ↔ P y)
      (h : ∀ y ∈ t.transfers ++ t.freed, P y) :
      ∀ z ∈ (t.transfers.map fun y => if y.handle = handle then { y with walk := w } else y) ++
        t.freed, P z := by
    simp only [List.mem_append, List.mem_map] at h ⊢
    rintro z (⟨y, hy, rfl⟩ | hz)
    · split_ifs
      exacts [(hP y).mpr (h y (.inl hy)), h y (.inl hy)]
    · exact h z (.inr hz)
  refine ⟨hkeep (fun _ => .rfl) hi.fresh, by simpa only [List.map_append, hids] using hi.nodup,
    hkeep (fun _ => .rfl) hi.ids, ?_, ?_, ?_⟩
  all_goals intro z hz; obtain ⟨y, hy, rfl⟩ := List.mem_map.mp hz; split_ifs with h
  · exact hi.regions y hy
  · exact hi.regions y hy
  · exact hi.count y hy
  · exact hi.count y hy
  · have hyx : y = x := by
      have := find?_key_of_nodup hi.nodup_transfers hy
      rw [h] at this
      exact Option.some.inj (this.symm.trans hx)
    subst hyx
    exact reachable_step (hi.walk y hy) hw
  · exact hi.walk y hy

theorem TransfersInv.destroy (hi : TransfersInv slaveTarget tree t) {x : CastleTransfer}
    (hx : x ∈ t.transfers) : TransfersInv slaveTarget tree (castleTransferDestroy x t) := by
  have hp : (t.transfers.erase x ++ x :: t.freed).Perm (t.transfers ++ t.freed) :=
    List.perm_middle.trans ((List.perm_cons_erase hx).symm.append_right _)
  refine ⟨fun y hy => hi.fresh y (hp.subset hy), (hp.map _).nodup_iff.mpr hi.nodup,
    fun y hy => hi.ids y (hp.subset hy),
    fun y hy => hi.regions y ((List.erase_sublist _ _).subset hy),
    fun y hy => hi.count y ((List.erase_sublist _ _).subset hy),
    fun y hy => hi.walk y ((List.erase_sublist _ _).subset hy)⟩

theorem destroyAll_spec (l : List CastleTransfer) (t : Transfers) (h : t.transfers = l)
    (hi : TransfersInv slaveTarget tree t) :
    TransfersInv slaveTarget tree (destroyAll l t) ∧ (destroyAll l t).transfers = [] ∧
      (destroyAll l t).freed = l.reverse ++ t.freed := by
  induction l generalizing t with
  | nil => exact ⟨hi, h, rfl⟩
  | cons x rest ih =>
    have hx : x ∈ t.transfers := h ▸ List.mem_cons_self x rest
    obtain ⟨h₁, h₂, h₃⟩ := ih (castleTransferDestroy x t) (by simp [castleTransferDestroy, h])
      (hi.destroy hx)
    exact ⟨h₁, h₂, by simpa [castleTransferDestroy] using h₃⟩

/-- From the invariant, a call crashes exactly when `Call.Crashes` says, and otherwise keeps the
invariant: no callback of a transfer on the list hits a `BUG`, and neither a destruction nor
`castle_transfers_free` crashes. -/
theorem callStep_spec (hi : TransfersInv slaveTarget tree t) (c : Call) :
    (callStep slaveTarget tree t c = none ↔ c.Crashes slaveTarget tree t) ∧
      ∀ t', callStep slaveTarget tree t c = some t' → TransfersInv slaveTarget tree t' := by
  cases c with
  | create version direction env =>
    refine ⟨?_, fun t' h => ?_⟩
    · simp [callStep, Call.Crashes, (castleTransferCreate_cases version direction env t).1]
    · obtain ⟨r, hr, rfl⟩ := Option.map_eq_some'.mp h
      exact hi.create hr
  | destroy handle =>
    refine ⟨by simp only [callStep]; split <;> simp [Call.Crashes], fun t' h => ?_⟩
    simp only [callStep] at h
    split at h <;> cases h
    · exact hi.destroy (List.mem_of_find?_eq_some ‹_›)
    · exact hi
  | free =>
    refine ⟨by simp [callStep, Call.Crashes], fun t' h => ?_⟩
    cases h
    exact (destroyAll_spec t.transfers t rfl hi).1
  | walk handle e =>
    simp only [callStep]
    split
    · rename_i x hx
      have hs := step_isSome (reachable_inv (hi.walk x (List.mem_of_find?_eq_some hx))) e
      obtain ⟨w, hw⟩ := Option.isSome_iff_exists.mp hs
      refine ⟨by simp [hw, Call.Crashes, hx], fun t' h => ?_⟩
      rw [hw] at h
      cases h
      exact hi.walk_step hx hw
    · rename_i hx
      split
      · rename_i x hf
        refine ⟨by split_ifs <;> simp_all [Call.Crashes], fun t' h => ?_⟩
        split_ifs at h
        cases h
        exact hi
      · exact ⟨by simp_all [Call.Crashes], fun t' h => by
          cases h
          exact hi⟩

theorem callRun_append (t : Transfers) (a b : List Call) :
    callRun slaveTarget tree t (a ++ b) =
      (callRun slaveTarget tree t a).bind fun t => callRun slaveTarget tree t b := by
  induction a generalizing t with
  | nil => rfl
  | cons c a ih =>
    simp only [List.cons_append, callRun]
    cases callStep slaveTarget tree t c <;> simp [ih]

theorem callRun_spec (hi : TransfersInv slaveTarget tree t) (calls : List Call) :
    (callRun slaveTarget tree t calls = none ↔
        ∃ pre c post t', calls = pre ++ c :: post ∧ callRun slaveTarget tree t pre = some t' ∧
          c.Crashes slaveTarget tree t') ∧
      ∀ t', callRun slaveTarget tree t calls = some t' → TransfersInv slaveTarget tree t' := by
  induction calls generalizing t with
  | nil => exact ⟨by simp [callRun], fun t' h => by
      cases h
      exact hi⟩
  | cons c cs ih =>
    obtain ⟨hn, hk⟩ := callStep_spec hi c
    cases h : callStep slaveTarget tree t c with
    | none =>
      simp only [callRun, h, Option.none_bind]
      exact ⟨iff_of_true trivial ⟨[], c, cs, t, rfl, rfl, hn.mp h⟩, fun t' h' => by cases h'⟩
    | some t₁ =>
      obtain ⟨ih₁, ih₂⟩ := ih (hk t₁ h)
      have hc : ¬c.Crashes slaveTarget tree t := fun hc => by simp [hn.mpr hc] at h
      simp only [callRun, h, Option.some_bind]
      refine ⟨ih₁.trans ⟨fun ⟨pre, c', post, t', he, hr, hcr⟩ => ⟨c :: pre, c', post, t',
        by rw [he]; rfl, by simpa [callRun, h] using hr, hcr⟩, ?_⟩, ih₂⟩
      rintro ⟨_ | ⟨c'', pre⟩, c', post, t', he, hr, hcr⟩
      · obtain ⟨rfl, rfl⟩ := List.cons.inj he
        cases hr
        exact absurd hcr hc
      · obtain ⟨rfl, rfl⟩ := List.cons.inj he
        exact ⟨pre, c', post, t', rfl, by simpa [callRun, h] using hr, hcr⟩

theorem transfersInv_empty : TransfersInv slaveTarget tree .empty :=
  ⟨fun _ h => absurd h (List.not_mem_nil _), List.nodup_nil,
    fun _ h => absurd h (List.not_mem_nil _), fun _ h => absurd h (List.not_mem_nil _),
    fun _ h => absurd h (List.not_mem_nil _), fun _ h => absurd h (List.not_mem_nil _)⟩

/-- Until `transfer_id` wraps, the ids on the list are the handles, and so distinct. -/
theorem TransfersInv.nodup_ids (hi : TransfersInv slaveTarget tree t)
    (hw : t.transferId ≤ 2 ^ 32) : (t.transfers.map (·.id)).Nodup := by
  rw [List.map_congr_left fun x hx => (hi.ids x (List.mem_append_left _ hx)).trans
    (Nat.mod_eq_of_lt ((hi.fresh x (List.mem_append_left _ hx)).trans_le hw))]
  exact hi.nodup_transfers

end inv

/-- **Every transfer runs its own engine.**  After any run of creations, destructions and engine
events of the transfers, in any interleaving, every transfer on `castle_transfers` holds exactly
`regions_count` regions, all of its own version, and its walk is in a state its engine reaches
from `castle_transfer_start`; and while `transfer_id` has been incremented at most `2 ^ 32`
times, it is the one `castle_transfer_find` finds by its id. -/
theorem transfers_walk_reachable (slaveTarget : Nat → Bool) (tree : Nat → List (List Cdb))
    (calls : List Call) {t : Transfers} (h : callRun slaveTarget tree .empty calls = some t)
    {x : CastleTransfer} (hx : x ∈ t.transfers) :
    (t.transferId ≤ 2 ^ 32 → castleTransferFind t.transfers x.id = some x) ∧
      (∀ region ∈ x.regions, region.version = x.version) ∧
      x.regionsCount = x.regions.length ∧ Reachable (x.config slaveTarget tree) x.walk := by
  have hi := (callRun_spec transfersInv_empty calls).2 t h
  exact ⟨fun hw => find?_key_of_nodup (hi.nodup_ids hw) hx, hi.regions x hx, hi.count x hx,
    hi.walk x hx⟩

/-- A transfer of version `3` to the target slave `1`, with one region of that version and one
of another. -/
def createToTarget : Call :=
  .create 3 .toTarget ⟨0, true, [⟨1, 3, 10⟩, ⟨2, 4, 10⟩], true, 0⟩

/-- The transfer `createToTarget` makes, once the iterator has started its first node. -/
def startedTransfer : CastleTransfer :=
  ⟨0, 0, 3, .toTarget, [⟨1, 3, 10⟩], 1, ⟨1, 0, .inNode 0 0, [], [.nodeStart 0]⟩⟩

/-- The transfer made and its first node started, on a tree of one node. -/
theorem transfers_walk_reachable_oneTransfer :
    callRun (fun disk => disk == 1) (fun _ => [[⟨0, 7⟩]]) .empty
        [createToTarget, .walk 0 (.iterNext ⟨none, fun _ _ => 0, fun _ _ => none⟩ true)] =
      some ⟨[startedTransfer], 1, []⟩ ∧ startedTransfer ∈ [startedTransfer] ∧
      ((⟨[startedTransfer], 1, []⟩ : Transfers).transferId ≤ 2 ^ 32 →
        castleTransferFind [startedTransfer] startedTransfer.id = some startedTransfer) ∧
      (∀ region ∈ startedTransfer.regions, region.version = startedTransfer.version) ∧
      startedTransfer.regionsCount = startedTransfer.regions.length ∧
      Reachable (startedTransfer.config (fun disk => disk == 1) (fun _ => [[⟨0, 7⟩]]))
        startedTransfer.walk :=
  have h : callRun (fun disk => disk == 1) (fun _ => [[⟨0, 7⟩]]) .empty
      [createToTarget, .walk 0 (.iterNext ⟨none, fun _ _ => 0, fun _ _ => none⟩ true)] =
      some ⟨[startedTransfer], 1, []⟩ := by
    decide
  ⟨h, List.mem_singleton_self _, transfers_walk_reachable _ _ _ h (List.mem_singleton_self _)⟩

/-- **What crashes the transfers.**  A run of creations, destructions and engine events of the
transfers, in any interleaving, crashes exactly at a call that `Call.Crashes` names in the state
it meets: a `castle_transfer_create` for a version `castle_version_snap_get` refuses or whose
transfer cannot be allocated, whose error path reads `transfer->regions` through the NULL
pointer, or a callback that acts on a transfer already freed.  No callback of a transfer on the
list, no destruction and no `castle_transfers_free` ever crashes. -/
theorem transfers_crash_iff (slaveTarget : Nat → Bool) (tree : Nat → List (List Cdb))
    (calls : List Call) :
    callRun slaveTarget tree .empty calls = none ↔
      ∃ pre c post t, calls = pre ++ c :: post ∧ callRun slaveTarget tree .empty pre = some t ∧
        c.Crashes slaveTarget tree t :=
  (callRun_spec transfersInv_empty calls).1

/-- A transfer asked for a version that `castle_version_snap_get` refuses crashes the run. -/
example :
    callRun (fun _ => false) (fun _ => []) .empty
      [.create 3 .toRegion ⟨-22, true, [], true, 0⟩, createToTarget] = none := by
  decide

theorem castleDoTransferCallback_inflight (k : Nat) (src dest : Cdb) (u : Bool) (s : State) :
    (castleDoTransferCallback k src dest u s).inflight = s.inflight := by
  unfold castleDoTransferCallback phaseDecAndContinue castleFtreeIterContinue
  cases u <;> simp only [Bool.not_false, Bool.not_true, if_true, Bool.false_eq_true, if_false]
  split_ifs <;> (try split) <;> rfl

/-- The completion of a read in flight acts on the walk: it takes the read off. -/
theorem step_readEnd_ne (cfg : Config) {s : State} (h : s.inflight ≠ []) (u : Bool) :
    step cfg s (.readEnd 0 u) ≠ some s := by
  obtain ⟨⟨k, src, dest⟩, rest, hm⟩ := List.exists_cons_of_ne_nil h
  simp only [step, hm, List.getElem?_cons_zero, Option.some.injEq]
  intro he
  have := congrArg (fun s : State => s.inflight.length) (Option.some.inj he)
  simp [castleDoTransferCallback_inflight, hm] at this

theorem find?_erase_of_nodup {l : List CastleTransfer} {x : CastleTransfer}
    (hn : (l.map (·.handle)).Nodup) (hx : x ∈ l) : findHandle (l.erase x) x.handle = none := by
  refine List.find?_eq_none.mpr fun y hy he => ?_
  obtain ⟨hyx, hyl⟩ := (List.Nodup.of_map _ hn).mem_erase_iff.mp hy
  exact hyx (List.inj_on_of_nodup_map hn hyl hx (by simpa using he))

/-- **Freeing a transfer does not stop its reads.**  After any run, if a transfer on the list has
a read in flight, `castle_transfer_destroy` of it or `castle_transfers_free` frees it while the
read is still submitted: the read's completion then runs `castle_do_transfer_callback` on the
freed transfer, and the run crashes. -/
theorem freed_transfer_read_completion_crashes (slaveTarget : Nat → Bool)
    (tree : Nat → List (List Cdb)) (calls : List Call) {t : Transfers}
    (h : callRun slaveTarget tree .empty calls = some t) {x : CastleTransfer}
    (hx : x ∈ t.transfers) (hinf : x.walk.inflight ≠ []) (u : Bool) :
    callRun slaveTarget tree t [.destroy x.handle, .walk x.handle (.readEnd 0 u)] = none ∧
      callRun slaveTarget tree t [.free, .walk x.handle (.readEnd 0 u)] = none := by
  have hi := (callRun_spec transfersInv_empty calls).2 t h
  have hne := step_readEnd_ne (x.config slaveTarget tree) hinf u
  obtain ⟨hi₂, hl₂, hf₂⟩ := destroyAll_spec t.transfers t rfl hi
  have hfree : findHandle (castleTransfersFree t).freed x.handle = some x := by
    have hn := hi₂.nodup
    rw [hl₂, List.nil_append] at hn
    exact find?_key_of_nodup hn (by simp [castleTransfersFree, hf₂, hx])
  have h₀ : findHandle t.transfers x.handle = some x := find?_key_of_nodup hi.nodup_transfers hx
  have h₁ : findHandle (x :: t.freed) x.handle = some x := by simp [findHandle]
  have h₂ : findHandle [] x.handle = none := rfl
  constructor
  · simp [callRun, callStep, h₀, castleTransferDestroy, find?_erase_of_nodup hi.nodup_transfers hx,
      h₁, hne]
  · simp only [castleTransfersFree] at hfree hl₂
    simp [callRun, callStep, castleTransfersFree, hl₂, h₂, hfree, hne]

/-- The allocator's answer of a transfer to the target: block `9` of slave `1`. -/
def targetBlock : FreeSpace := ⟨some ⟨1, 9⟩, fun _ _ => 0, fun _ _ => none⟩

/-- The transfer `createToTarget` makes, once it has submitted the read of its one block. -/
def readingTransfer : CastleTransfer :=
  ⟨0, 0, 3, .toTarget, [⟨1, 3, 10⟩], 1, ⟨2, 0, .inNode 0 1, [(0, ⟨0, 7⟩, ⟨1, 9⟩)],
    [.submit ⟨0, 7⟩, .moveStart 0 ⟨0, 7⟩ ⟨1, 9⟩, .pageGet ⟨1, 9⟩, .destination 0 (some ⟨1, 9⟩),
      .pageGet ⟨0, 7⟩, .each 0 ⟨0, 7⟩, .nodeStart 0]⟩⟩

/-- A transfer whose source page is not up to date submits its read; freeing the transfer
then lets the completion crash. -/
theorem freed_transfer_read_completion_crashes_oneRead :
    callRun (fun disk => disk == 1) (fun _ => [[⟨0, 7⟩]]) .empty
        [createToTarget, .walk 0 (.iterNext targetBlock false), .walk 0 (.iterNext targetBlock false)] =
      some ⟨[readingTransfer], 1, []⟩ ∧ readingTransfer ∈ [readingTransfer] ∧
      readingTransfer.walk.inflight ≠ [] ∧
      callRun (fun disk => disk == 1) (fun _ => [[⟨0, 7⟩]]) ⟨[readingTransfer], 1, []⟩
          [.destroy readingTransfer.handle, .walk readingTransfer.handle (.readEnd 0 true)] = none ∧
      callRun (fun disk => disk == 1) (fun _ => [[⟨0, 7⟩]]) ⟨[readingTransfer], 1, []⟩
          [.free, .walk readingTransfer.handle (.readEnd 0 true)] = none :=
  have h : callRun (fun disk => disk == 1) (fun _ => [[⟨0, 7⟩]]) .empty
      [createToTarget, .walk 0 (.iterNext targetBlock false), .walk 0 (.iterNext targetBlock false)] =
      some ⟨[readingTransfer], 1, []⟩ := by
    decide
  ⟨h, List.mem_singleton_self _, List.cons_ne_nil _ _,
    freed_transfer_read_completion_crashes _ _ _ h (List.mem_singleton_self _) (List.cons_ne_nil _ _)
      true⟩

end Transfer
end Castle
