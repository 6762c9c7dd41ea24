import GarnOS.Library.Outcome

/-! Devices and their drivers: the two mirror-image loops that bind them, and when the result
depends on the order in which they arrive. A driver node is named by its path, which
`device_driver_register` keeps unique; the lists are in order of insertion. -/
namespace GarnOS
open Function List

def DEVICE_ID_CLASS_PS2 : BitVec 8 := 0x01
def DEVICE_ID_CLASS_PCI : BitVec 8 := 0x02
def DEVICE_ID_CLASS_ACPI : BitVec 8 := 0x03
def DEVICE_ID_CLASS_BUS : BitVec 8 := 0x04
def DEVICE_ID_CLASS_TIMER : BitVec 8 := 0x05
def DEVICE_ID_CLASS_FS_PDEV : BitVec 8 := 0x06

/-- `device_id_t`; `none` is a `NULL` string. The field `value32` is never compared. -/
structure DeviceId where
  cls : BitVec 8
  value8 : Fin 4 → BitVec 8
  value16 : Fin 4 → BitVec 16
  string : Fin 2 → Option String

def deviceMatchIds (id1 id2 : DeviceId) : Bool :=
  if id1.cls ≠ id2.cls then false
  else if id1.cls = DEVICE_ID_CLASS_FS_PDEV ∨ id1.cls = DEVICE_ID_CLASS_PS2 then true
  else if id1.cls = DEVICE_ID_CLASS_TIMER then id1.value8 0 == id2.value8 0
  else if id1.cls = DEVICE_ID_CLASS_BUS then id1.value8 0 == id2.value8 0
  else if id1.cls = DEVICE_ID_CLASS_PCI then
    (id1.value16 0 == id2.value16 0 || id1.value16 0 == 0xFFFF) &&
    (id1.value16 1 == id2.value16 1 || id1.value16 1 == 0xFFFF) &&
    id1.value16 2 == id2.value16 2 &&
    id1.value16 3 == id2.value16 3 &&
    (id1.value8 0 == id2.value8 0 || id1.value8 0 == 0xFF)
  else if id1.cls = DEVICE_ID_CLASS_ACPI then
    (id1.string 0).isSome && (id2.string 0).isSome && id1.string 0 == id2.string 0
  else false

/-- The nested loops over a driver's and a device's ids. -/
def idsMatch (ids idList : List DeviceId) : Bool :=
  ids.any fun id1 => idList.any fun id2 => deviceMatchIds id1 id2

/-- What the loops call of a loaded driver; `none` is a `NULL` pointer. -/
structure DriverCode where
  probe : Option (ℕ → Bool)
  attach : ℕ → Bool

/-- What lies outside: the ids of the devices by address, and the driver files by path, with their
`driver_ids` (`none` when `device_driver_register` rejects the file) and the code that
`elf_load_driver` makes of them (`none` when it fails). -/
structure Hardware where
  idList : ℕ → List DeviceId
  driverIds : String → Option (List DeviceId)
  code : String → Option DriverCode

structure DriverNode where
  driver : Option DriverCode
  ids : List DeviceId
  loaded : Bool

/-- The lists of the device manager, the nodes by path, and `device->node` of every device. -/
structure DeviceManager where
  deviceList : List ℕ
  driverList : List String
  drivers : String → Option DriverNode
  node : ℕ → Option String

def DeviceManager.init : DeviceManager := ⟨[], [], fun _ => none, fun _ => none⟩

def elfLoadDriver (hw : Hardware) (s : DeviceManager) (path : String) (n : DriverNode) :
    DriverNode × DeviceManager :=
  match hw.code path with
  | none => (n, s)
  | some code =>
    let n := { n with driver := some code, loaded := true }
    (n, { s with drivers := update s.drivers path (some n) })

/-- The body that both loops share, for one driver and one device: whether the device is now
attached. -/
def tryAttach (hw : Hardware) (s : DeviceManager) (path : String) (device : ℕ) :
    Bool × DeviceManager :=
  match s.drivers path with
  | none => (false, s)
  | some n =>
    if !idsMatch n.ids (hw.idList device) then (false, s) else
    let (n, s) := if n.loaded then (n, s) else elfLoadDriver hw s path n
    match n.driver with
    | none => (false, s)
    | some driver =>
      match driver.probe with
      | none => (false, s)
      | some probe =>
        if !probe device then (false, s) else
        let s := { s with node := update s.node device (some path) }
        if driver.attach device then (true, s)
        else (false, { s with node := update s.node device none })

/-- The loop of `device_attach_to_driver`: it ends at the first device that attaches. -/
def attachDevices (hw : Hardware) (path : String) : List ℕ → DeviceManager → Bool × DeviceManager
  | [], s => (false, s)
  | device :: rest, s =>
    match tryAttach hw s path device with
    | (true, s) => (true, s)
    | (false, s) => attachDevices hw path rest s

def attachDrivers (hw : Hardware) (device : ℕ) : List String → DeviceManager → Bool × DeviceManager
  | [], s => (false, s)
  | path :: rest, s =>
    match tryAttach hw s path device with
    | (true, s) => (true, s)
    | (false, s) => attachDrivers hw device rest s

def deviceAttachToDriver (hw : Hardware) (s : DeviceManager) (path : String) :
    Bool × DeviceManager :=
  attachDevices hw path s.deviceList s

def deviceDriverAttach (hw : Hardware) (s : DeviceManager) (device : ℕ) : Bool × DeviceManager :=
  attachDrivers hw device s.driverList s

def deviceAdd (hw : Hardware) (s : DeviceManager) (device : ℕ) : DeviceManager :=
  (deviceDriverAttach hw { s with deviceList := s.deviceList ++ [device] } device).2

def deviceDriverRegister (hw : Hardware) (s : DeviceManager) (path : String) : ℤ × DeviceManager :=
  if path ∈ s.driverList then (-1, s)
  else
    match hw.driverIds path with
    | none | some [] => (-1, s)
    | some ids =>
      let s := { s with
        driverList := s.driverList ++ [path]
        drivers := update s.drivers path (some ⟨none, ids, false⟩) }
      (0, (deviceAttachToDriver hw s path).2)

inductive DeviceCall where
  | add (device : ℕ)
  | register (path : String)
  deriving DecidableEq, Repr

def DeviceManager.call (hw : Hardware) (s : DeviceManager) : DeviceCall → DeviceManager
  | .add device => deviceAdd hw s device
  | .register path => (deviceDriverRegister hw s path).2

/-- The devices and drivers after a sequence of calls. -/
def deviceRun (hw : Hardware) (calls : List DeviceCall) : DeviceManager :=
  calls.foldl (DeviceManager.call hw) .init

/-- The devices and the drivers that the calls name, in order. -/
def addedDevices (calls : List DeviceCall) : List ℕ :=
  calls.filterMap fun c => match c with
    | .add device => some device
    | .register _ => none

def registeredDrivers (calls : List DeviceCall) : List String :=
  calls.filterMap fun c => match c with
    | .add _ => none
    | .register path => some path

def Hardware.fits (hw : Hardware) (path : String) (device : ℕ) : Bool :=
  idsMatch ((hw.driverIds path).getD []) (hw.idList device)

/-- The calls name different devices and different drivers; every driver registers and loads, every
probe and attach of a matching device succeeds, and no device matches two drivers. -/
structure Cooperative (hw : Hardware) (calls : List DeviceCall) : Prop where
  devices : (addedDevices calls).Nodup
  drivers : (registeredDrivers calls).Nodup
  files : ∀ path ∈ registeredDrivers calls, ∃ id ids, hw.driverIds path = some (id :: ids)
  loads : ∀ path ∈ registeredDrivers calls, ∃ code probe, hw.code path = some code ∧
    code.probe = some probe ∧
    ∀ device, hw.fits path device → probe device ∧ code.attach device
  unique : ∀ device ∈ addedDevices calls, ∀ p ∈ registeredDrivers calls,
    ∀ q ∈ registeredDrivers calls, hw.fits p device → hw.fits q device → p = q

/-- What the loops amount to when everything succeeds: the lists and `device->node`. -/
structure Binding where
  devices : List ℕ
  drivers : List String
  node : ℕ → Option String

open Binding

def Binding.init : Binding := ⟨[], [], fun _ => none⟩

/-- A new device takes the first driver that fits; a new driver takes the first device that fits,
and no other. -/
def Binding.call (hw : Hardware) (b : Binding) : DeviceCall → Binding
  | .add device =>
    { b with
      devices := b.devices ++ [device]
      node := match b.drivers.find? (hw.fits · device) with
        | some path => update b.node device (some path)
        | none => b.node }
  | .register path =>
    { b with
      drivers := b.drivers ++ [path]
      node := match b.devices.find? (hw.fits path) with
        | some device => update b.node device (some path)
        | none => b.node }

def bindingRun (hw : Hardware) (calls : List DeviceCall) : Binding :=
  calls.foldl (call hw) .init

structure Realizes (hw : Hardware) (s : DeviceManager) (b : Binding) : Prop where
  deviceList : s.deviceList = b.devices
  driverList : s.driverList = b.drivers
  node : s.node = b.node
  nodes : ∀ path ∈ b.drivers, ∃ n, s.drivers path = some n ∧
    n.ids = (hw.driverIds path).getD [] ∧ (n.loaded → n.driver = hw.code path)

/-- The driver loads, and its probe and attach succeed for the devices that fit. -/
def Loads (hw : Hardware) (path : String) : Prop :=
  ∃ code probe, hw.code path = some code ∧ code.probe = some probe ∧
    ∀ device, hw.fits path device → probe device ∧ code.attach device

section Refinement
variable {hw : Hardware} {s : DeviceManager} {b : Binding} {path : String} {device : ℕ}

section
variable (h : Realizes hw s b) (hp : path ∈ b.drivers)
include h hp

theorem Realizes.tryAttach_unfit (hfit : hw.fits path device = false) :
    tryAttach hw s path device = (false, s) := by
  obtain ⟨n, hn, hids, -⟩ := h.nodes path hp
  have hno : idsMatch n.ids (hw.idList device) = false := by rw [hids]; exact hfit
  simp [tryAttach, hn, hno]

theorem Realizes.tryAttach_fit (hload : Loads hw path) (hfit : hw.fits path device = true) :
    ∃ s', tryAttach hw s path device = (true, s') ∧
      Realizes hw s' { b with node := update b.node device (some path) } := by
  obtain ⟨n, hn, hids, hloaded⟩ := h.nodes path hp
  obtain ⟨code, probe, hcode, hprobe, hok⟩ := hload
  obtain ⟨hprobed, hattached⟩ := hok device hfit
  have hyes : idsMatch n.ids (hw.idList device) = true := by rw [hids]; exact hfit
  by_cases hl : n.loaded = true
  · have hdriver : n.driver = some code := (hloaded hl).trans hcode
    refine ⟨{ s with node := update s.node device (some path) }, ?_,
      h.deviceList, h.driverList, by rw [← h.node], h.nodes⟩
    simp [tryAttach, hn, hyes, hl, hdriver, hprobe, hprobed, hattached]
  · refine ⟨{ s with
        drivers := update s.drivers path (some { n with driver := some code, loaded := true })
        node := update s.node device (some path) }, ?_,
      h.deviceList, h.driverList, by rw [← h.node], ?_⟩
    · simp [tryAttach, hn, hyes, hl, elfLoadDriver, hcode, hprobe, hprobed, hattached]
    · intro q hq
      by_cases hqp : q = path
      · subst hqp
        exact ⟨_, update_self .., hids, fun _ => hcode.symm⟩
      · obtain ⟨m, hm, hrest⟩ := h.nodes q hq
        exact ⟨m, (update_of_ne hqp _ _).trans hm, hrest⟩

theorem Realizes.attachDevices (hload : Loads hw path) (ds : List ℕ) :
    Realizes hw (attachDevices hw path ds s).2
      { b with node := match ds.find? (hw.fits path) with
        | some device => update b.node device (some path)
        | none => b.node } := by
  induction ds with
  | nil => exact h
  | cons d ds ih =>
    cases hfit : hw.fits path d with
    | false =>
      simp only [GarnOS.attachDevices, h.tryAttach_unfit hp hfit, find?_cons, hfit]
      exact ih
    | true =>
      obtain ⟨s', hcall, hrep⟩ := h.tryAttach_fit hp hload hfit
      simp only [GarnOS.attachDevices, hcall, find?_cons, hfit]
      exact hrep

end

theorem Realizes.attachDrivers (h : Realizes hw s b) (hload : ∀ p ∈ b.drivers, Loads hw p)
    (ps : List String) (hps : ∀ p ∈ ps, p ∈ b.drivers) :
    Realizes hw (attachDrivers hw device ps s).2
      { b with node := match ps.find? (hw.fits · device) with
        | some path => update b.node device (some path)
        | none => b.node } := by
  induction ps with
  | nil => exact h
  | cons p ps ih =>
    have hp := hps p (by simp)
    cases hfit : hw.fits p device with
    | false =>
      simp only [GarnOS.attachDrivers, h.tryAttach_unfit hp hfit, find?_cons, hfit]
      exact ih fun q hq => hps q (mem_cons_of_mem _ hq)
    | true =>
      obtain ⟨s', hcall, hrep⟩ := h.tryAttach_fit hp (hload p hp) hfit
      simp only [GarnOS.attachDrivers, hcall, find?_cons, hfit]
      exact hrep

theorem Realizes.call (h : Realizes hw s b) (c : DeviceCall)
    (hload : ∀ p ∈ b.drivers, Loads hw p)
    (hnew : ∀ path, c = .register path → path ∉ b.drivers ∧ Loads hw path ∧
      ∃ id ids, hw.driverIds path = some (id :: ids)) :
    Realizes hw (s.call hw c) (b.call hw c) := by
  cases c with
  | add device =>
    have hrep : Realizes hw { s with deviceList := s.deviceList ++ [device] }
        { b with devices := b.devices ++ [device] } :=
      ⟨by rw [h.deviceList], h.driverList, h.node, h.nodes⟩
    have hall := @Realizes.attachDrivers hw _ _ device hrep hload b.drivers fun p hp => hp
    simp only [DeviceManager.call, deviceAdd, deviceDriverAttach, h.driverList] at hall ⊢
    exact hall
  | register path =>
    obtain ⟨hpath, hloads, id, ids, hids⟩ := hnew path rfl
    have hrep : Realizes hw { s with
        driverList := s.driverList ++ [path]
        drivers := update s.drivers path (some ⟨none, id :: ids, false⟩) }
        { b with drivers := b.drivers ++ [path] } := by
      refine ⟨h.deviceList, by rw [h.driverList], h.node, ?_⟩
      intro q hq
      by_cases hqp : q = path
      · subst hqp
        exact ⟨_, update_self .., by rw [hids]; rfl, nofun⟩
      · have hqb : q ∈ b.drivers := by simpa [hqp] using hq
        obtain ⟨m, hm, hrest⟩ := h.nodes q hqb
        exact ⟨m, (update_of_ne hqp _ _).trans hm, hrest⟩
    have hall := @Realizes.attachDevices hw _ _ path hrep (by simp) hloads b.devices
    have hnot : path ∉ s.driverList := by rwa [h.driverList]
    simp only [DeviceManager.call, deviceDriverRegister, if_neg hnot, hids, deviceAttachToDriver,
      h.deviceList] at hall ⊢
    exact hall

end Refinement

section Runs
variable {hw : Hardware} {calls calls' cs ds : List DeviceCall} {c : DeviceCall} {d : ℕ}
    {p : String}

@[simp]
theorem addedDevices_append (cs ds : List DeviceCall) :
    addedDevices (cs ++ ds) = addedDevices cs ++ addedDevices ds := List.filterMap_append

@[simp]
theorem registeredDrivers_append (cs ds : List DeviceCall) :
    registeredDrivers (cs ++ ds) = registeredDrivers cs ++ registeredDrivers ds :=
  filterMap_append

theorem bindingRun_concat (cs : List DeviceCall) (c : DeviceCall) :
    bindingRun hw (cs ++ [c]) = (bindingRun hw cs).call hw c := by
  simp [bindingRun, foldl_append]

theorem deviceRun_concat (cs : List DeviceCall) (c : DeviceCall) :
    deviceRun hw (cs ++ [c]) = (deviceRun hw cs).call hw c := by
  simp [deviceRun, foldl_append]

theorem bindingRun_lists (hw : Hardware) (cs : List DeviceCall) :
    (bindingRun hw cs).devices = addedDevices cs ∧
      (bindingRun hw cs).drivers = registeredDrivers cs := by
  induction cs using reverseRecOn with
  | nil => exact ⟨rfl, rfl⟩
  | append_singleton cs c ih =>
    rw [bindingRun_concat, addedDevices_append, registeredDrivers_append]
    cases c with
    | add d => exact ⟨by rw [← ih.1]; rfl, by rw [← ih.2]; simp [call, registeredDrivers]⟩
    | register p => exact ⟨by rw [← ih.1]; simp [call, addedDevices], by rw [← ih.2]; rfl⟩

theorem Cooperative.before (h : Cooperative hw (cs ++ ds)) : Cooperative hw cs := by
  obtain ⟨hdevices, hdrivers, hfiles, hloads, hunique⟩ := h
  simp only [addedDevices_append, registeredDrivers_append, mem_append] at *
  exact ⟨hdevices.of_append_left, hdrivers.of_append_left, fun p h => hfiles p (.inl h),
    fun p h => hloads p (.inl h),
    fun d h p h1 q h2 => hunique d (.inl h) p (.inl h1) q (.inl h2)⟩

theorem Cooperative.fresh_device (h : Cooperative hw (cs ++ .add d :: ds)) :
    d ∉ addedDevices cs ∧ d ∉ addedDevices ds := by
  have hnodup := h.devices
  rw [addedDevices_append, nodup_append] at hnodup
  exact ⟨fun hin => hnodup.2.2 d hin d (by simp [addedDevices]) rfl,
    (nodup_cons.mp hnodup.2.1).1⟩

theorem Cooperative.fresh_driver (h : Cooperative hw (cs ++ .register p :: ds)) :
    p ∉ registeredDrivers cs ∧ p ∉ registeredDrivers ds := by
  have hnodup := h.drivers
  rw [registeredDrivers_append, nodup_append] at hnodup
  exact ⟨fun hin => hnodup.2.2 p hin p (by simp [registeredDrivers]) rfl,
    (nodup_cons.mp hnodup.2.1).1⟩

theorem Cooperative.realizes (h : Cooperative hw calls) :
    Realizes hw (deviceRun hw calls) (bindingRun hw calls) := by
  induction calls using reverseRecOn with
  | nil => exact ⟨rfl, rfl, rfl, by simp [bindingRun, init]⟩
  | append_singleton cs c ih =>
    have hdrivers := (bindingRun_lists hw cs).2
    rw [deviceRun_concat, bindingRun_concat]
    apply (ih h.before).call c
    · rw [hdrivers]
      exact h.before.loads
    · rintro path rfl
      have hmem : path ∈ registeredDrivers (cs ++ [.register path]) := by
        simp [registeredDrivers]
      exact ⟨by rw [hdrivers]; exact h.fresh_driver.1, h.loads path hmem, h.files path hmem⟩

theorem Binding.node_add (b : Binding) (d' : ℕ) : (b.call hw (.add d')).node d =
    if d = d' then (b.drivers.find? (hw.fits · d')).or (b.node d) else b.node d := by
  simp only [call]
  cases b.drivers.find? (hw.fits · d') with
  | none => simp
  | some q => simp [update_apply]

theorem Binding.node_register (b : Binding) (q : String) : (b.call hw (.register q)).node d =
    if b.devices.find? (hw.fits q) = some d then some q else b.node d := by
  simp only [call]
  cases b.devices.find? (hw.fits q) with
  | none => simp
  | some d' => simp [update_apply, eq_comm]

theorem bindingRun_fits (hw : Hardware) (cs : List DeviceCall)
    (h : (bindingRun hw cs).node d = some p) :
    d ∈ addedDevices cs ∧ p ∈ registeredDrivers cs ∧ hw.fits p d = true := by
  induction cs using reverseRecOn with
  | nil => cases h
  | append_singleton cs c ih =>
    obtain ⟨hdevices, hdrivers⟩ := bindingRun_lists hw cs
    rw [addedDevices_append, registeredDrivers_append]
    have hold : (bindingRun hw cs).node d = some p →
        d ∈ addedDevices cs ++ addedDevices [c] ∧
        p ∈ registeredDrivers cs ++ registeredDrivers [c] ∧ hw.fits p d = true := fun h =>
      ⟨mem_append_left _ (ih h).1, mem_append_left _ (ih h).2.1, (ih h).2.2⟩
    rw [bindingRun_concat] at h
    cases c with
    | add d' =>
      rw [node_add, hdrivers] at h
      split_ifs at h with hd
      · subst hd
        rcases Option.or_eq_some_iff.mp h with hq | ⟨-, hq⟩
        · exact ⟨by simp [addedDevices], mem_append_left _ (mem_of_find?_eq_some hq),
            by simpa using find?_some hq⟩
        · exact hold hq
      · exact hold h
    | register q =>
      rw [node_register, hdevices] at h
      split_ifs at h with hd
      · cases h
        exact ⟨mem_append_left _ (mem_of_find?_eq_some hd), by simp [registeredDrivers],
          find?_some hd⟩
      · exact hold h

/-- No driver is registered after two devices that it fits. -/
def OneWaiting (hw : Hardware) (calls : List DeviceCall) : Prop :=
  ∀ cs p ds, calls = cs ++ .register p :: ds → ((addedDevices cs).filter (hw.fits p)).length ≤ 1

theorem OneWaiting.before (h : OneWaiting hw (cs ++ ds)) : OneWaiting hw cs := by
  rintro cs p es rfl
  exact h cs p (es ++ ds) (by simp)

theorem Cooperative.bound (h : Cooperative hw calls) (hone : OneWaiting hw calls)
    (hd : d ∈ addedDevices calls) (hp : p ∈ registeredDrivers calls) (hfit : hw.fits p d = true) :
    (bindingRun hw calls).node d = some p := by
  induction calls using reverseRecOn with
  | nil => simp [addedDevices] at hd
  | append_singleton cs c ih =>
    obtain ⟨hdevices, hdrivers⟩ := bindingRun_lists hw cs
    have hunique := h.unique d hd p hp
    rw [addedDevices_append] at hd
    rw [registeredDrivers_append] at hp
    have hih := ih h.before hone.before
    rw [bindingRun_concat]
    cases c with
    | add d' =>
      have hpcs : p ∈ registeredDrivers cs := by simpa [registeredDrivers] using hp
      rw [node_add, hdrivers]
      split_ifs with heq
      · subst heq
        -- the only driver that fits is the first one the loop meets
        cases hfind : (registeredDrivers cs).find? (hw.fits · d) with
        | none => exact absurd hfit (by simpa using find?_eq_none.mp hfind p hpcs)
        | some q =>
          rw [hunique q (by simp [mem_of_find?_eq_some hfind]) hfit (by simpa using find?_some hfind)]
          rfl
      · exact hih (by simpa [addedDevices, heq] using hd) hpcs
    | register q =>
      have hdcs : d ∈ addedDevices cs := by simpa [addedDevices] using hd
      rw [node_register, hdevices]
      by_cases hpq : p = q
      · subst hpq
        obtain ⟨a, ha⟩ := length_eq_one_iff.mp (Nat.le_antisymm (hone cs p [] rfl)
          (length_pos_of_mem (mem_filter.mpr ⟨hdcs, hfit⟩)))
        obtain rfl : d = a := mem_singleton.mp (ha ▸ mem_filter.mpr ⟨hdcs, hfit⟩)
        rw [← head?_filter, ha, head?_cons, if_pos rfl]
      · rw [if_neg]
        · exact hih hdcs (by simpa [registeredDrivers, hpq] using hp)
        · intro hfind
          exact hpq (hunique q (by simp [registeredDrivers]) hfit (find?_some hfind))

theorem Cooperative.left_waiting (h : Cooperative hw (cs ++ .register p :: ds))
    (hd : d ∈ addedDevices cs)
    (hfirst : (addedDevices cs).find? (hw.fits p) ≠ some d) :
    (bindingRun hw (cs ++ .register p :: ds)).node d ≠ some p := by
  induction ds using reverseRecOn with
  | nil =>
    rw [bindingRun_concat, node_register, (bindingRun_lists hw cs).1, if_neg hfirst]
    exact fun hbound => h.fresh_driver.1 (bindingRun_fits hw cs hbound).2.1
  | append_singleton ds c ih =>
    have hsplit : cs ++ .register p :: (ds ++ [c]) = (cs ++ .register p :: ds) ++ [c] := by simp
    rw [hsplit] at h ⊢
    rw [bindingRun_concat]
    cases c with
    | add d' =>
      have hne : d ≠ d' := by
        rintro rfl
        exact h.fresh_device.1 (by simp [hd])
      rw [node_add, if_neg hne]
      exact ih h.before
    | register q =>
      rw [node_register]
      split_ifs
      · intro hq
        exact h.fresh_driver.1 (by simp [registeredDrivers, Option.some.inj hq])
      · exact ih h.before

theorem Cooperative.oneWaiting_of_bound (h : Cooperative hw calls)
    (hall : ∀ d ∈ addedDevices calls, ∀ p ∈ registeredDrivers calls, hw.fits p d = true →
      (bindingRun hw calls).node d = some p) : OneWaiting hw calls := by
  rintro cs p ds rfl
  by_contra htwo
  obtain ⟨a, b, rest, hfilter⟩ : ∃ a b rest, (addedDevices cs).filter (hw.fits p) =
      a :: b :: rest := by
    match hlist : (addedDevices cs).filter (hw.fits p) with
    | [] | [a] => simp [hlist] at htwo
    | a :: b :: rest => exact ⟨a, b, rest, rfl⟩
  obtain ⟨hb, hfit⟩ : b ∈ addedDevices cs ∧ hw.fits p b = true :=
    mem_filter.mp (hfilter ▸ by simp)
  have hfirst : (addedDevices cs).find? (hw.fits p) ≠ some b := by
    have hnodup := h.before.devices.filter (hw.fits p)
    rw [hfilter] at hnodup
    rw [← head?_filter, hfilter]
    intro hab
    exact (nodup_cons.mp hnodup).1 (by simp [Option.some.inj hab])
  exact h.left_waiting hb hfirst (hall b (by simp [hb]) p (by simp [registeredDrivers]) hfit)

theorem Cooperative.perm (h : Cooperative hw calls) (hperm : calls.Perm calls') :
    Cooperative hw calls' := by
  have hd : (addedDevices calls).Perm (addedDevices calls') := hperm.filterMap _
  have hp : (registeredDrivers calls).Perm (registeredDrivers calls') := hperm.filterMap _
  exact ⟨hd.nodup_iff.mp h.devices, hp.nodup_iff.mp h.drivers,
    fun p hmem => h.files p (hp.mem_iff.mpr hmem), fun p hmem => h.loads p (hp.mem_iff.mpr hmem),
    fun d hmem p h1 q h2 => h.unique d (hd.mem_iff.mpr hmem) p (hp.mem_iff.mpr h1) q
      (hp.mem_iff.mpr h2)⟩

/-- Every device with a fitting driver is bound to it. -/
def AllBound (hw : Hardware) (calls : List DeviceCall) : Prop :=
  ∀ d ∈ addedDevices calls, ∀ p ∈ registeredDrivers calls, hw.fits p d = true →
    (deviceRun hw calls).node d = some p

/-- For every order of the calls, and every other order of the same calls. -/
theorem binding_order_independent_iff (h : Cooperative hw calls) (hperm : calls.Perm calls') :
    ((deviceRun hw calls).node = (deviceRun hw calls').node ∧
      AllBound hw calls ∧ AllBound hw calls') ↔ OneWaiting hw calls ∧ OneWaiting hw calls' := by
  have h' := h.perm hperm
  have hd : (addedDevices calls).Perm (addedDevices calls') := hperm.filterMap _
  have hp : (registeredDrivers calls).Perm (registeredDrivers calls') := hperm.filterMap _
  unfold AllBound
  rw [h.realizes.node, h'.realizes.node]
  constructor
  · rintro ⟨-, hall, hall'⟩
    exact ⟨h.oneWaiting_of_bound hall, h'.oneWaiting_of_bound hall'⟩
  · rintro ⟨hone, hone'⟩
    refine ⟨?_, fun d hd p hp => h.bound hone hd hp, fun d hd p hp => h'.bound hone' hd hp⟩
    funext d
    refine Option.ext fun p => ⟨fun hbound => ?_, fun hbound => ?_⟩
    · obtain ⟨hin, hreg, hfit⟩ := bindingRun_fits hw calls hbound
      exact h'.bound hone' (hd.mem_iff.mp hin) (hp.mem_iff.mp hreg) hfit
    · obtain ⟨hin, hreg, hfit⟩ := bindingRun_fits hw calls' hbound
      exact h.bound hone (hd.mem_iff.mpr hin) (hp.mem_iff.mpr hreg) hfit

end Runs

/-- Every device is an AHCI controller, and `ahci.mod` is its driver. -/
def ahciHardware : Hardware where
  idList _ := [⟨DEVICE_ID_CLASS_PCI, fun _ => 1, ![0x8086, 0x2922, 1, 6], fun _ => none⟩]
  driverIds _ := some [⟨DEVICE_ID_CLASS_PCI, fun _ => 1, ![0xFFFF, 0xFFFF, 1, 6], fun _ => none⟩]
  code _ := some ⟨some fun _ => true, fun _ => true⟩

theorem ahciHardware_cooperative {calls : List DeviceCall} (hd : (addedDevices calls).Nodup)
    (hp : registeredDrivers calls = ["ahci.mod"]) : Cooperative ahciHardware calls := by
  refine ⟨hd, by simp [hp], fun _ _ => ⟨_, _, rfl⟩, fun _ _ => ⟨_, _, rfl, rfl, by simp⟩, ?_⟩
  intro d _ p h1 q h2 _ _
  rw [hp, mem_singleton] at h1 h2
  rw [h1, h2]

/-- Two controllers found before the driver is registered: only the first is bound. -/
theorem binding_order_dependent : ∃ hw calls calls', Cooperative hw calls ∧ calls.Perm calls' ∧
    (deviceRun hw calls).node 2 = none ∧ (deviceRun hw calls').node 2 = some "ahci.mod" := by
  refine ⟨ahciHardware, [.add 1, .add 2, .register "ahci.mod"],
    [.register "ahci.mod", .add 1, .add 2], ahciHardware_cooperative (by decide) rfl, by decide, ?_, ?_⟩
  · decide
  · decide

/-- One controller is bound in either order. -/
theorem binding_order_independent_single :
    (deviceRun ahciHardware [.add 1, .register "ahci.mod"]).node =
      (deviceRun ahciHardware [.register "ahci.mod", .add 1]).node := by
  have hone {calls : List DeviceCall} (hlen : (addedDevices calls).length ≤ 1) :
      OneWaiting ahciHardware calls := by
    rintro cs p ds rfl
    rw [addedDevices_append, length_append] at hlen
    have hfilter := (addedDevices cs).length_filter_le (ahciHardware.fits p)
    omega
  exact ((binding_order_independent_iff (ahciHardware_cooperative (by decide) rfl)
    (List.Perm.swap _ _ _)).mpr ⟨hone (by decide), hone (by decide)⟩).1

end GarnOS
