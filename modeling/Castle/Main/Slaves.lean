import Castle.Main.FsInit

/-!
# Slaves, mirrored devices and the block devices they hold

`castle_claim` takes a slave: it allocates the `struct castle_slave`, gives it the next
`slave_id`, opens the block device with `open_by_devnum`, claims it with `bd_claim`, reads and
validates the slave superblock and puts the slave on `castle_slaves`; `castle_release` releases
the claim, puts the device and takes the slave off the list.  `castle_dev_mirror` opens and
claims a base device through `castle_basedisk_claim`, allocates the gendisk and its queue and
puts the device on `castle_devices`; `castle_device_free` releases it.  `castle_exit` releases
every slave (`castle_slaves_free`) and then every device (`castle_devices_free`).

The kernel's answers at each call (`kmalloc`, `open_by_devnum`, `bd_claim`,
`castle_sub_block_read`, `alloc_disk`, `blk_alloc_queue`) are modelled from the spec as inputs,
and each block device by two counters: its opens (`open_by_devnum` less `blkdev_put`) and its
claims (`bd_claim` less `bd_release`).

Every operation moves a device's counters together with the slaves and devices on it, except on
two error paths: a `castle_claim` that fails at the slave superblock puts the device but never
releases its claim, and a `castle_dev_mirror` that fails after `castle_basedisk_claim` keeps
both (`device_claims_account`).  So once `castle_exit` has released every slave and device, a
device is still claimed exactly as often as those failures happened on it
(`exit_leaves_failed_claims`).  The slaves on the list have valid superblocks, and distinct ids
as long as `slave_id`, an `int`, has not been incremented past `2 ^ 32` (`claimed_slaves_valid`).
-/

namespace Castle
namespace Main

/-! ## Superblocks -/

/-- `castle_fs_superblock_validate` and `castle_slave_superblock_validate`: the three magic
numbers, checked in order. -/
def magicValidate (m1 m2 m3 magic1 magic2 magic3 : Nat) : Int :=
  if magic1 ≠ m1 then -1
  else if magic2 ≠ m2 then -2
  else if magic3 ≠ m3 then -3
  else 0

theorem magicValidate_eq_zero {m1 m2 m3 magic1 magic2 magic3 : Nat} :
    magicValidate m1 m2 m3 magic1 magic2 magic3 = 0 ↔ magic1 = m1 ∧ magic2 = m2 ∧ magic3 = m3 := by
  unfold magicValidate
  split_ifs <;> simp_all

theorem castleFsSuperblockValidate_eq (fsSb : FsSuperblock) :
    castleFsSuperblockValidate fsSb =
      magicValidate 0x19731121 0x19880624 0x19821120 fsSb.magic1 fsSb.magic2 fsSb.magic3 :=
  rfl

/-- A `struct castle_slave_superblock`: the magic numbers `castle_slave_superblock_validate`
checks and the uuid `castle_slave_find_by_uuid` looks for. -/
structure SlaveSuperblock where
  magic1 : Nat
  magic2 : Nat
  magic3 : Nat
  uuid : Nat
deriving DecidableEq, Repr

/-- `castle_slave_superblock_validate`. -/
def castleSlaveSuperblockValidate (csSb : SlaveSuperblock) : Int :=
  magicValidate 0x02061985 0x16071983 0x16061981 csSb.magic1 csSb.magic2 csSb.magic3

/-- `castle_slave_superblock_read`, given what `castle_sub_block_read` returns for the first
bytes of the device: its error and the superblock. -/
def castleSlaveSuperblockRead (readErr : Int) (csSb : SlaveSuperblock) : Int :=
  if readErr ≠ 0 then readErr else
  let err := castleSlaveSuperblockValidate csSb
  if err ≠ 0 then err else 0

theorem castleSlaveSuperblockRead_eq_zero {readErr : Int} {csSb : SlaveSuperblock}
    (h : castleSlaveSuperblockRead readErr csSb = 0) : castleSlaveSuperblockValidate csSb = 0 := by
  unfold castleSlaveSuperblockRead at h
  split_ifs at h <;> simp_all

/-! ## The lists and the block devices -/

/-- A `struct castle_slave`: its id, the device it claimed and its superblock. -/
structure CastleSlave where
  id : Nat
  dev : Nat
  csSb : SlaveSuperblock
deriving DecidableEq, Repr

/-- A `struct castle_device`: the minor of its gendisk and the base device it claimed. -/
structure CastleDevice where
  minor : Nat
  base : Nat
deriving DecidableEq, Repr

/-- `castle_slaves`, `castle_devices`, the static counters `slave_id` of `castle_claim` (how many
times it has been incremented: the slave ids are its values modulo `2 ^ 32`) and `minor` of
`castle_dev_mirror`, and, modelled from the spec, each block device's opens and claims and the
minors of the castle devices `bdget` took a reference to. -/
structure Globals where
  slaves : List CastleSlave
  devices : List CastleDevice
  slaveId : Nat
  minor : Nat
  opens : Nat → Int
  claims : Nat → Int
  bdgets : List Nat

/-- Module load: empty lists, no device opened or claimed. -/
def Globals.init : Globals := ⟨[], [], 0, 0, fun _ => 0, fun _ => 0, []⟩

/-- `open_by_devnum` that opened the device. -/
@[simps slaves devices slaveId minor claims bdgets]
def Globals.openByDevnum (g : Globals) (d : Nat) : Globals :=
  { g with opens := Function.update g.opens d (g.opens d + 1) }

/-- `blkdev_put`. -/
@[simps slaves devices slaveId minor claims bdgets]
def Globals.blkdevPut (g : Globals) (d : Nat) : Globals :=
  { g with opens := Function.update g.opens d (g.opens d - 1) }

/-- `bd_claim` that succeeded. -/
@[simps slaves devices slaveId minor opens bdgets]
def Globals.bdClaim (g : Globals) (d : Nat) : Globals :=
  { g with claims := Function.update g.claims d (g.claims d + 1) }

/-- `bd_release`. -/
@[simps slaves devices slaveId minor opens bdgets]
def Globals.bdRelease (g : Globals) (d : Nat) : Globals :=
  { g with claims := Function.update g.claims d (g.claims d - 1) }

section counters
variable (g : Globals) (d d' : Nat)

@[simp] theorem Globals.openByDevnum_opens :
    (g.openByDevnum d).opens d' = g.opens d' + if d' = d then 1 else 0 := by
  by_cases h : d' = d <;> simp [Globals.openByDevnum, Function.update_apply, h]

@[simp] theorem Globals.blkdevPut_opens :
    (g.blkdevPut d).opens d' = g.opens d' - if d' = d then 1 else 0 := by
  by_cases h : d' = d <;> simp [Globals.blkdevPut, Function.update_apply, h]

@[simp] theorem Globals.bdClaim_claims :
    (g.bdClaim d).claims d' = g.claims d' + if d' = d then 1 else 0 := by
  by_cases h : d' = d <;> simp [Globals.bdClaim, Function.update_apply, h]

@[simp] theorem Globals.bdRelease_claims :
    (g.bdRelease d).claims d' = g.claims d' - if d' = d then 1 else 0 := by
  by_cases h : d' = d <;> simp [Globals.bdRelease, Function.update_apply, h]

end counters

/-! ## `castle_claim` and `castle_release` -/

/-- Modelled from the spec: the kernel's answers to one `castle_claim`: whether `kmalloc`
allocates the slave and `open_by_devnum` opens the device, what `bd_claim` returns, and what
`castle_sub_block_read` returns for the slave superblock. -/
structure ClaimEnv where
  alloc : Bool
  opened : Bool
  claimErr : Int
  readErr : Int
  csSb : SlaveSuperblock

/-- `castle_slave_find_by_id`: the first slave with that id. -/
def castleSlaveFindById (slaves : List CastleSlave) (id : Nat) : Option CastleSlave :=
  slaves.find? fun slave => slave.id = id

/-- `castle_claim` of the device `newDev` (`new_decode_dev` taken as the identity): the slave
taken, and the state after; its `uint32_t` id is what `slave_id++` gives.  The error path puts
the device once it was opened, and frees the slave. -/
def castleClaim (newDev : Nat) (env : ClaimEnv) (g : Globals) : Option CastleSlave × Globals :=
  if !env.alloc then (none, g) else
  let cs : CastleSlave := ⟨g.slaveId % 2 ^ 32, newDev, env.csSb⟩
  let g := { g with slaveId := g.slaveId + 1 }
  if !env.opened then (none, g) else
  let g := g.openByDevnum newDev
  if env.claimErr ≠ 0 then (none, g.blkdevPut newDev) else
  let g := g.bdClaim newDev
  if castleSlaveSuperblockRead env.readErr env.csSb ≠ 0 then (none, g.blkdevPut newDev)
  else (some cs, { g with slaves := cs :: g.slaves })

/-- `castle_release`. -/
def castleRelease (cs : CastleSlave) (g : Globals) : Globals :=
  { (g.bdRelease cs.dev).blkdevPut cs.dev with slaves := g.slaves.erase cs }

/-- The loop of `castle_slaves_free` over the slaves it found on the list. -/
def releaseAll : List CastleSlave → Globals → Globals
  | [], g => g
  | cs :: rest, g => releaseAll rest (castleRelease cs g)

/-- `castle_slaves_free`. -/
def castleSlavesFree (g : Globals) : Globals :=
  releaseAll g.slaves g

/-! ## `castle_dev_mirror` and `castle_device_free` -/

/-- Modelled from the spec: the kernel's answers to one `castle_dev_mirror`: whether `kmalloc`
allocates the device, whether `open_by_devnum` opens the base device and what `bd_claim`
returns (in `castle_basedisk_claim`), and whether `alloc_disk` and `blk_alloc_queue`
allocate. -/
structure MirrorEnv where
  alloc : Bool
  opened : Bool
  claimErr : Int
  disk : Bool
  queue : Bool

/-- `castle_basedisk_claim`: whether it returns the block device, and the state after. -/
def castleBasediskClaim (baseDev : Nat) (env : MirrorEnv) (g : Globals) : Bool × Globals :=
  if !env.opened then (false, g) else
  let g := g.openByDevnum baseDev
  if env.claimErr ≠ 0 then (false, g.blkdevPut baseDev) else (true, g.bdClaim baseDev)

/-- `castle_dev_mirror`: the device made, and the state after.  Its error path frees nothing. -/
def castleDevMirror (baseDev : Nat) (env : MirrorEnv) (g : Globals) :
    Option CastleDevice × Globals :=
  if !env.alloc then (none, g) else
  let (claimed, g) := castleBasediskClaim baseDev env g
  if !claimed then (none, g) else
  if !env.disk then (none, g) else
  let cd : CastleDevice := ⟨g.minor, baseDev⟩
  let g := { g with minor := g.minor + 1 }
  if !env.queue then (none, g) else
  (some cd, { g with devices := cd :: g.devices, bdgets := cd.minor :: g.bdgets })

/-- `castle_device_free`. -/
def castleDeviceFree (cd : CastleDevice) (g : Globals) : Globals :=
  { (g.bdRelease cd.base).blkdevPut cd.base with devices := g.devices.erase cd }

/-- The loop of `castle_devices_free` over the devices it found on the list. -/
def freeAll : List CastleDevice → Globals → Globals
  | [], g => g
  | cd :: rest, g => freeAll rest (castleDeviceFree cd g)

/-- `castle_devices_free` (`unregister_blkdev` of the major left out). -/
def castleDevicesFree (g : Globals) : Globals :=
  freeAll g.devices g

/-! ## Runs -/

/-- What `castle_exit` does to the lists: `castle_slaves_free`, then `castle_devices_free` (the
sysfs, control and B-tree teardown left out). -/
def castleExit (g : Globals) : Globals :=
  castleDevicesFree (castleSlavesFree g)

/-- The calls that change the lists: `castle_claim`, `castle_dev_mirror`, the loops of
`castle_exit`, and `castle_release` and `castle_device_free`, whose other callers are outside
`src/`: the slave or device they are given is one on the list, named here by its id or minor. -/
inductive Ev
  | claim (newDev : Nat) (env : ClaimEnv)
  | release (id : Nat)
  | mirror (baseDev : Nat) (env : MirrorEnv)
  | free (minor : Nat)
  | slavesFree
  | devicesFree

/-- One call. -/
def step (g : Globals) : Ev → Globals
  | .claim newDev env => (castleClaim newDev env g).2
  | .release id =>
    match castleSlaveFindById g.slaves id with
    | some cs => castleRelease cs g
    | none => g
  | .mirror baseDev env => (castleDevMirror baseDev env g).2
  | .free minor =>
    match g.devices.find? fun cd => cd.minor = minor with
    | some cd => castleDeviceFree cd g
    | none => g
  | .slavesFree => castleSlavesFree g
  | .devicesFree => castleDevicesFree g

/-- Calls one after another. -/
def run (g : Globals) : List Ev → Globals
  | [] => g
  | e :: evs => run (step g e) evs

/-! ## What the lists account for -/

/-- The slaves and mirrored devices on the lists that hold device `d`. -/
def holders (g : Globals) (d : Nat) : Int :=
  (g.slaves.countP fun cs => cs.dev = d) + (g.devices.countP fun cd => cd.base = d)

/-- Opens of `d` that no slave or device on the lists accounts for. -/
def openSlack (g : Globals) (d : Nat) : Int := g.opens d - holders g d

/-- Claims of `d` that no slave or device on the lists accounts for. -/
def claimSlack (g : Globals) (d : Nat) : Int := g.claims d - holders g d

/-- A `castle_claim` that claimed its device and then failed at the slave superblock. -/
def ClaimEnv.leaks (env : ClaimEnv) : Bool :=
  env.alloc && env.opened && env.claimErr == 0 && castleSlaveSuperblockRead env.readErr env.csSb != 0

/-- A `castle_dev_mirror` that claimed its base device and then failed at `alloc_disk` or
`blk_alloc_queue`. -/
def MirrorEnv.leaks (env : MirrorEnv) : Bool :=
  env.alloc && env.opened && env.claimErr == 0 && !(env.disk && env.queue)

/-- A call of `castle_claim` on `d` that leaves a claim behind. -/
def Ev.claimLeak (d : Nat) : Ev → Bool
  | .claim newDev env => newDev == d && env.leaks
  | _ => false

/-- A call of `castle_dev_mirror` on `d` that leaves an open and a claim behind. -/
def Ev.mirrorLeak (d : Nat) : Ev → Bool
  | .mirror baseDev env => baseDev == d && env.leaks
  | _ => false

section slack
variable (g : Globals) (d : Nat)

theorem countP_erase_add {α : Type} [DecidableEq α] {p : α → Bool} {l : List α} {a : α}
    (h : a ∈ l) : (l.erase a).countP p + (if p a then 1 else 0) = l.countP p := by
  rw [← List.countP_cons, (List.perm_cons_erase h).countP_eq]

theorem castleClaim_slack (newDev : Nat) (env : ClaimEnv) :
    openSlack (castleClaim newDev env g).2 d = openSlack g d ∧
      claimSlack (castleClaim newDev env g).2 d =
        claimSlack g d + if newDev = d ∧ env.leaks then 1 else 0 := by
  unfold castleClaim ClaimEnv.leaks
  cases env.alloc
  · simp
  cases env.opened
  · simp [openSlack, claimSlack, holders]
  by_cases hC : env.claimErr = 0
  · by_cases hR : castleSlaveSuperblockRead env.readErr env.csSb = 0 <;>
      simp [hC, hR, openSlack, claimSlack, holders, List.countP_cons] <;> split_ifs <;> omega
  · simp [hC, openSlack, claimSlack, holders]

theorem castleRelease_slack {cs : CastleSlave} (h : cs ∈ g.slaves) :
    openSlack (castleRelease cs g) d = openSlack g d ∧
      claimSlack (castleRelease cs g) d = claimSlack g d := by
  have hc := @countP_erase_add _ _ (fun c => decide (c.dev = d)) _ _ h
  simp only [openSlack, claimSlack, holders, castleRelease, Globals.blkdevPut_opens,
    Globals.bdRelease_opens, Globals.blkdevPut_claims, Globals.bdRelease_claims]
  by_cases hd : cs.dev = d
  · simp [hd] at hc ⊢
    omega
  · simp [hd, Ne.symm hd] at hc ⊢
    omega

theorem releaseAll_slack (l : List CastleSlave) (g : Globals) (h : g.slaves = l) :
    (releaseAll l g).slaves = [] ∧ (releaseAll l g).devices = g.devices ∧
      openSlack (releaseAll l g) d = openSlack g d ∧
      claimSlack (releaseAll l g) d = claimSlack g d := by
  induction l generalizing g with
  | nil => exact ⟨h, rfl, rfl, rfl⟩
  | cons cs rest ih =>
    have hmem : cs ∈ g.slaves := h ▸ List.mem_cons_self cs rest
    obtain ⟨ho, hc⟩ := castleRelease_slack g d hmem
    obtain ⟨h₁, h₂, h₃, h₄⟩ := ih (castleRelease cs g) (by simp [castleRelease, h])
    exact ⟨h₁, h₂, h₃.trans ho, h₄.trans hc⟩

theorem castleDevMirror_slack (baseDev : Nat) (env : MirrorEnv) :
    openSlack (castleDevMirror baseDev env g).2 d =
        openSlack g d + (if baseDev = d ∧ env.leaks then 1 else 0) ∧
      claimSlack (castleDevMirror baseDev env g).2 d =
        claimSlack g d + if baseDev = d ∧ env.leaks then 1 else 0 := by
  unfold castleDevMirror castleBasediskClaim MirrorEnv.leaks
  cases env.alloc
  · simp
  cases env.opened
  · simp
  by_cases hC : env.claimErr = 0
  · cases env.disk <;> [skip; cases env.queue] <;>
      simp [hC, openSlack, claimSlack, holders, List.countP_cons] <;> split_ifs <;> omega
  · simp [hC, openSlack, claimSlack, holders]

theorem castleDeviceFree_slack {cd : CastleDevice} (h : cd ∈ g.devices) :
    openSlack (castleDeviceFree cd g) d = openSlack g d ∧
      claimSlack (castleDeviceFree cd g) d = claimSlack g d := by
  have hc := @countP_erase_add _ _ (fun c => decide (c.base = d)) _ _ h
  simp only [openSlack, claimSlack, holders, castleDeviceFree, Globals.blkdevPut_opens,
    Globals.bdRelease_opens, Globals.blkdevPut_claims, Globals.bdRelease_claims]
  by_cases hd : cd.base = d
  · simp [hd] at hc ⊢
    omega
  · simp [hd, Ne.symm hd] at hc ⊢
    omega

theorem freeAll_slack (l : List CastleDevice) (g : Globals) (h : g.devices = l) :
    (freeAll l g).devices = [] ∧ (freeAll l g).slaves = g.slaves ∧
      openSlack (freeAll l g) d = openSlack g d ∧
      claimSlack (freeAll l g) d = claimSlack g d := by
  induction l generalizing g with
  | nil => exact ⟨h, rfl, rfl, rfl⟩
  | cons cd rest ih =>
    have hmem : cd ∈ g.devices := h ▸ List.mem_cons_self cd rest
    obtain ⟨ho, hc⟩ := castleDeviceFree_slack g d hmem
    obtain ⟨h₁, h₂, h₃, h₄⟩ := ih (castleDeviceFree cd g) (by simp [castleDeviceFree, h])
    exact ⟨h₁, h₂, h₃.trans ho, h₄.trans hc⟩

end slack

theorem step_slack (g : Globals) (e : Ev) (d : Nat) :
    openSlack (step g e) d = openSlack g d + (if e.mirrorLeak d then 1 else 0) ∧
      claimSlack (step g e) d =
        claimSlack g d + (if e.mirrorLeak d then 1 else 0) + if e.claimLeak d then 1 else 0 := by
  cases e with
  | claim newDev env =>
    obtain ⟨h₁, h₂⟩ := castleClaim_slack g d newDev env
    simp [step, Ev.mirrorLeak, Ev.claimLeak, h₁, h₂]
  | release id =>
    simp only [step, Ev.mirrorLeak, Ev.claimLeak]
    split
    · rename_i cs hcs
      simpa using castleRelease_slack g d (List.mem_of_find?_eq_some hcs)
    · simp
  | mirror baseDev env =>
    obtain ⟨h₁, h₂⟩ := castleDevMirror_slack g d baseDev env
    simp [step, Ev.mirrorLeak, Ev.claimLeak, h₁, h₂]
  | free minor =>
    simp only [step, Ev.mirrorLeak, Ev.claimLeak]
    split
    · rename_i cd hcd
      simpa using castleDeviceFree_slack g d (List.mem_of_find?_eq_some hcd)
    · simp
  | slavesFree =>
    obtain ⟨-, -, h₁, h₂⟩ := releaseAll_slack d g.slaves g rfl
    simpa [step, Ev.mirrorLeak, Ev.claimLeak, castleSlavesFree] using ⟨h₁, h₂⟩
  | devicesFree =>
    obtain ⟨-, -, h₁, h₂⟩ := freeAll_slack d g.devices g rfl
    simpa [step, Ev.mirrorLeak, Ev.claimLeak, castleDevicesFree] using ⟨h₁, h₂⟩

theorem run_slack (g : Globals) (evs : List Ev) (d : Nat) :
    openSlack (run g evs) d = openSlack g d + evs.countP (·.mirrorLeak d) ∧
      claimSlack (run g evs) d =
        claimSlack g d + evs.countP (·.mirrorLeak d) + evs.countP (·.claimLeak d) := by
  induction evs generalizing g with
  | nil => simp [run]
  | cons e evs ih =>
    obtain ⟨h₁, h₂⟩ := step_slack g e d
    obtain ⟨h₃, h₄⟩ := ih (step g e)
    simp only [run, List.countP_cons, h₃, h₄, h₁, h₂]
    push_cast
    constructor <;> omega

theorem init_slack (d : Nat) : openSlack .init d = 0 ∧ claimSlack .init d = 0 := by
  simp [openSlack, claimSlack, holders, Globals.init]

/-- **What the block devices hold.**  After any run from module load, a device is opened once
for each slave and mirrored device on the lists that hold it and for each `castle_dev_mirror`
of it that failed after claiming it, and claimed as often again plus once for each
`castle_claim` of it that failed at the slave superblock. -/
theorem device_claims_account (evs : List Ev) (d : Nat) :
    (run .init evs).opens d = holders (run .init evs) d + evs.countP (·.mirrorLeak d) ∧
      (run .init evs).claims d = holders (run .init evs) d + evs.countP (·.mirrorLeak d) +
        evs.countP (·.claimLeak d) := by
  obtain ⟨h₁, h₂⟩ := run_slack .init evs d
  obtain ⟨h₃, h₄⟩ := init_slack d
  simp only [openSlack, claimSlack] at h₁ h₂ h₃ h₄
  constructor <;> omega

theorem castleExit_slack (g : Globals) (d : Nat) :
    (castleExit g).slaves = [] ∧ (castleExit g).devices = [] ∧
      openSlack (castleExit g) d = openSlack g d ∧ claimSlack (castleExit g) d = claimSlack g d := by
  obtain ⟨hs, hd, h₁, h₂⟩ := releaseAll_slack d g.slaves g rfl
  obtain ⟨hd', hs', h₃, h₄⟩ := freeAll_slack d (castleSlavesFree g).devices (castleSlavesFree g) rfl
  exact ⟨hs'.trans hs, hd', h₃.trans h₁, h₄.trans h₂⟩

/-- **Claims left behind at exit.**  After any run from module load, `castle_exit` empties both
lists, and a device is left opened once for each `castle_dev_mirror` of it that failed after
claiming it, and claimed once for each of those and for each `castle_claim` of it that failed at
the slave superblock. -/
theorem exit_leaves_failed_claims (evs : List Ev) (d : Nat) :
    (castleExit (run .init evs)).slaves = [] ∧ (castleExit (run .init evs)).devices = [] ∧
      (castleExit (run .init evs)).opens d = evs.countP (·.mirrorLeak d) ∧
      (castleExit (run .init evs)).claims d =
        evs.countP (·.mirrorLeak d) + evs.countP (·.claimLeak d) := by
  obtain ⟨hs, hd, h₁, h₂⟩ := castleExit_slack (run .init evs) d
  obtain ⟨h₃, h₄⟩ := run_slack .init evs d
  obtain ⟨h₅, h₆⟩ := init_slack d
  simp only [openSlack, claimSlack, holders, hs, hd, List.countP_nil] at h₁ h₂ h₃ h₄ h₅ h₆
  refine ⟨hs, hd, ?_, ?_⟩ <;> omega

/-- A device whose slave superblock reads and carries the three magic numbers. -/
def goodSlaveEnv : ClaimEnv := ⟨true, true, 0, 0, ⟨0x02061985, 0x16071983, 0x16061981, 1⟩⟩

/-- A slave whose superblock has a wrong first magic number: the claim fails, and the device
stays claimed after `castle_exit`. -/
example :
    (castleExit (run .init [.claim 7 { goodSlaveEnv with csSb := ⟨0, 0, 0, 1⟩ }])).claims 7 = 1 ∧
      (castleExit (run .init [.claim 7 { goodSlaveEnv with csSb := ⟨0, 0, 0, 1⟩ }])).opens 7 = 0 := by
  decide

/-! ## The slaves on the list -/

/-- What every slave on `castle_slaves` satisfies: its superblock validated; and while
`slave_id` has not wrapped, its id was handed out by `castle_claim` before and the ids are
distinct. -/
structure SlavesInv (g : Globals) : Prop where
  fresh : g.slaveId ≤ 2 ^ 32 → ∀ cs ∈ g.slaves, cs.id < g.slaveId
  nodup : g.slaveId ≤ 2 ^ 32 → (g.slaves.map (·.id)).Nodup
  valid : ∀ cs ∈ g.slaves, castleSlaveSuperblockValidate cs.csSb = 0

section slavesInv
variable {g : Globals}

theorem SlavesInv.of_sublist {g' : Globals} (h : SlavesInv g) (hs : g'.slaves.Sublist g.slaves)
    (hid : g.slaveId ≤ g'.slaveId) : SlavesInv g' :=
  ⟨fun hw cs hc => Nat.lt_of_lt_of_le (h.fresh (hid.trans hw) cs (hs.subset hc)) hid,
    fun hw => (h.nodup (hid.trans hw)).sublist (hs.map _), fun cs hc => h.valid cs (hs.subset hc)⟩

theorem SlavesInv.of_eq {g' : Globals} (h : SlavesInv g) (hs : g'.slaves = g.slaves)
    (hid : g'.slaveId = g.slaveId) : SlavesInv g' :=
  h.of_sublist (hs ▸ List.Sublist.refl _) hid.ge

/-- `castle_claim` either leaves the list as it was or puts on it a slave with the next id and a
valid superblock; it never hands out an id twice. -/
theorem castleClaim_slaves (newDev : Nat) (env : ClaimEnv) (g : Globals) :
    g.slaveId ≤ (castleClaim newDev env g).2.slaveId ∧
      ((castleClaim newDev env g).2.slaves = g.slaves ∨
        castleSlaveSuperblockValidate env.csSb = 0 ∧
          (castleClaim newDev env g).2.slaveId = g.slaveId + 1 ∧
          (castleClaim newDev env g).2.slaves =
            ⟨g.slaveId % 2 ^ 32, newDev, env.csSb⟩ :: g.slaves) := by
  unfold castleClaim
  cases env.alloc
  · simp
  cases env.opened
  · simp
  by_cases hC : env.claimErr = 0
  · by_cases hR : castleSlaveSuperblockRead env.readErr env.csSb = 0
    · simp [hC, hR, castleSlaveSuperblockRead_eq_zero hR]
    · simp [hC, hR]
  · simp [hC]

theorem SlavesInv.claim (h : SlavesInv g) (newDev : Nat) (env : ClaimEnv) :
    SlavesInv (castleClaim newDev env g).2 := by
  obtain ⟨hid, hs | ⟨hv, hid', hs⟩⟩ := castleClaim_slaves newDev env g
  · exact h.of_sublist (hs ▸ List.Sublist.refl _) hid
  · -- below `2 ^ 32` the new id is the count itself, above every id on the list
    have hnew : ∀ hw : g.slaveId + 1 ≤ 2 ^ 32, g.slaveId % 2 ^ 32 = g.slaveId ∧
        ∀ cs ∈ g.slaves, cs.id < g.slaveId := fun hw =>
      ⟨Nat.mod_eq_of_lt (by omega), h.fresh (by omega)⟩
    refine ⟨?_, ?_, ?_⟩ <;> rw [hs] <;> (try rw [hid'])
    · rintro hw cs (_ | ⟨_, hc⟩)
      · rw [(hnew hw).1]; exact Nat.lt_succ_self _
      · exact Nat.lt_succ_of_lt ((hnew hw).2 cs hc)
    · refine fun hw => List.nodup_cons.mpr ⟨fun hm => ?_, h.nodup (by omega)⟩
      obtain ⟨cs, hc, he⟩ := List.mem_map.mp hm
      have hlt := (hnew hw).2 cs hc
      rw [he, (hnew hw).1] at hlt
      exact Nat.lt_irrefl _ hlt
    · rintro cs (_ | ⟨_, hc⟩)
      · exact hv
      · exact h.valid cs hc

theorem castleDevMirror_slaves (baseDev : Nat) (env : MirrorEnv) (g : Globals) :
    (castleDevMirror baseDev env g).2.slaves = g.slaves ∧
      (castleDevMirror baseDev env g).2.slaveId = g.slaveId := by
  unfold castleDevMirror castleBasediskClaim
  cases env.alloc
  · simp
  cases env.opened
  · simp
  by_cases hC : env.claimErr = 0
  · cases env.disk <;> [skip; cases env.queue] <;> simp [hC]
  · simp [hC]

theorem freeAll_slaveId (l : List CastleDevice) (g : Globals) :
    (freeAll l g).slaveId = g.slaveId := by
  induction l generalizing g with
  | nil => rfl
  | cons cd rest ih => exact (ih _).trans rfl

theorem slavesInv_step (h : SlavesInv g) (e : Ev) : SlavesInv (step g e) := by
  cases e with
  | claim newDev env => exact h.claim newDev env
  | release id =>
    simp only [step]
    split
    · exact h.of_sublist (List.erase_sublist _ _) le_rfl
    · exact h
  | mirror baseDev env =>
    obtain ⟨hs, hid⟩ := castleDevMirror_slaves baseDev env g
    exact h.of_eq hs hid
  | free minor =>
    simp only [step]
    split
    · exact h.of_eq rfl rfl
    · exact h
  | slavesFree =>
    obtain ⟨hs, -⟩ := releaseAll_slack 0 g.slaves g rfl
    exact ⟨by simp [step, castleSlavesFree, hs], by simp [step, castleSlavesFree, hs],
      by simp [step, castleSlavesFree, hs]⟩
  | devicesFree =>
    obtain ⟨-, hs, -⟩ := freeAll_slack 0 g.devices g rfl
    exact h.of_eq hs (freeAll_slaveId _ _)

theorem slavesInv_run (h : SlavesInv g) (evs : List Ev) : SlavesInv (run g evs) := by
  induction evs generalizing g with
  | nil => exact h
  | cons e evs ih => exact ih (slavesInv_step h e)

end slavesInv

/-- **The slaves on the list.**  After any run from module load, every slave on
`castle_slaves` has a superblock that carries the three slave magic numbers and a claimed
device; and while `slave_id` has been incremented at most `2 ^ 32` times, it is the one
`castle_slave_find_by_id` finds by its id. -/
theorem claimed_slaves_valid (evs : List Ev) {cs : CastleSlave}
    (h : cs ∈ (run .init evs).slaves) :
    ((run .init evs).slaveId ≤ 2 ^ 32 →
        castleSlaveFindById (run .init evs).slaves cs.id = some cs) ∧
      cs.csSb.magic1 = 0x02061985 ∧ cs.csSb.magic2 = 0x16071983 ∧ cs.csSb.magic3 = 0x16061981 ∧
      0 < (run .init evs).claims cs.dev := by
  have hi := slavesInv_run (⟨fun _ _ h => absurd h (List.not_mem_nil _), fun _ => List.nodup_nil,
    fun _ h => absurd h (List.not_mem_nil _)⟩ : SlavesInv .init) evs
  obtain ⟨h₁, h₂, h₃⟩ := magicValidate_eq_zero.mp (hi.valid cs h)
  refine ⟨fun hw => find?_key_of_nodup (hi.nodup hw) h, h₁, h₂, h₃, ?_⟩
  obtain ⟨-, hc⟩ := device_claims_account evs cs.dev
  have hpos : 0 < (run .init evs).slaves.countP fun c => c.dev = cs.dev :=
    List.countP_pos_iff.mpr ⟨cs, h, by simp⟩
  rw [hc, holders]
  omega

/-- One slave claimed on device `7`. -/
theorem claimed_slaves_valid_oneClaim :
    (⟨0, 7, goodSlaveEnv.csSb⟩ : CastleSlave) ∈ (run .init [.claim 7 goodSlaveEnv]).slaves ∧
      ((run .init [.claim 7 goodSlaveEnv]).slaveId ≤ 2 ^ 32 →
        castleSlaveFindById (run .init [.claim 7 goodSlaveEnv]).slaves 0 =
          some ⟨0, 7, goodSlaveEnv.csSb⟩) ∧
      goodSlaveEnv.csSb.magic1 = 0x02061985 ∧ goodSlaveEnv.csSb.magic2 = 0x16071983 ∧
      goodSlaveEnv.csSb.magic3 = 0x16061981 ∧ 0 < (run .init [.claim 7 goodSlaveEnv]).claims 7 :=
  have h : (⟨0, 7, goodSlaveEnv.csSb⟩ : CastleSlave) ∈ (run .init [.claim 7 goodSlaveEnv]).slaves :=
    by decide
  ⟨h, claimed_slaves_valid [.claim 7 goodSlaveEnv] h⟩

end Main
end Castle
