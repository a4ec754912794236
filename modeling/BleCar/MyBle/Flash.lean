import BleCar.Lib.Requests
import BleCar.Lib.Runs
import BleCar.MyBle.Link

/-!
# The configuration in flash

`my_fds.c` keeps `m_dummy_cfg` in one FDS record. The program is followed from one FDS call
or wait to the next; FDS carries its queue out in between, and each completion reaches
`fds_evt_handler` at any time after it. A return code comes with the event in which it is
returned, and one that `APP_ERROR_CHECK` refuses resets the chip.
-/

namespace BleCar.MyBle.Flash

open BleCar.Lib.Requests
open BleCar.MyBle.Link (nrfSuccess)

structure Configuration where
  idBleCode : Vector UInt8 17
  password : Vector UInt8 17
  passwordConfigFlag : UInt8
  deriving DecidableEq

def configFile : UInt16 := 0xF100
def configRecKey : UInt16 := 0x1010

structure Record where
  recordId : UInt32
  fileId : UInt16
  key : UInt16
  data : Configuration
  deriving DecidableEq

/-- An operation in the queue of FDS. The data of a record is `m_dummy_cfg` itself, and is read
when the operation is executed. -/
inductive Op where
  | init
  | write (recordId : UInt32)
  | update (recordId recordToDelete : UInt32)
  | gc
  deriving DecidableEq

/-- `fds_evt_id_t` -/
inductive EvtId where
  | init | write | update | delRecord | delFile | gc
  deriving DecidableEq

def Op.evtId : Op → EvtId
  | .init => .init
  | .write _ => .write
  | .update _ _ => .update
  | .gc => .gc

/-- What is called or waited for next; a wait names the operation it is meant for. -/
inductive Pos where
  | fdsInit
  | waitForFdsReady
  -- in `read_systerm_config_from_fds`
  | readWaitForFdsReady
  | readFdsStat
  | readFdsRecordFind
  | readFdsRecordOpen
  | readFdsRecordClose
  | readFdsRecordWrite
  | idle
  -- in `my_fds_once_write`
  | fdsStat
  | fdsRecordFind
  | fdsRecordUpdate
  | waitForFdsUpdate (op : Nat)
  | fdsGc
  | waitForFdsGc (op : Nat)
  | fdsRecordUpdateAgain
  | fdsRecordWrite
  | waitForFdsWrite (op : Nat)
  deriving DecidableEq

structure App where
  pos : Pos
  mFdsInitializedFalg : Bool
  mFdsUpdateFlag : Bool
  mFdsWriteFlag : Bool
  mFdsGcFlag : Bool
  /-- `desc.record_id` -/
  desc : UInt32
  mDummyCfg : Configuration
  fds : Service Op UInt32
  mLatestRecId : UInt32
  /-- the valid records, in the order in which a search meets them -/
  flash : List Record

def boot (flash : List Record) : App where
  pos := .fdsInit
  mFdsInitializedFalg := false
  mFdsUpdateFlag := false
  mFdsWriteFlag := false
  mFdsGcFlag := false
  desc := 0
  mDummyCfg := ⟨Vector.replicate 17 0, Vector.replicate 17 0, 0⟩
  fds := .empty
  mLatestRecId := 0
  flash := flash

inductive Event where
  /-- the next call, which returns `code`, or one turn of the wait -/
  | main (code : UInt32)
  /-- `fds_once_storage(flag)`, with the globals as they are -/
  | fdsOnceStorage (flag : UInt8) (sensorBleCode sensorPassword : Vector UInt8 16)
  /-- the first operation succeeds; a new record comes to stand at `place` -/
  | done (place : Nat)
  /-- the first operation fails, and leaves `flash` -/
  | failed (result : UInt32) (flash : List Record)
  /-- the completion at place `i` is signalled -/
  | signal (i : Nat)

/-- `APP_ERROR_CHECK` on the way to `t`. -/
def appErrorCheck (code : UInt32) (t : App) : App := if code = nrfSuccess then t else boot t.flash

/-! ## FDS -/

def isConfig (r : Record) : Bool := r.fileId = configFile ∧ r.key = configRecKey

/-- `fds_record_find(CONFIG_FILE, CONFIG_REC_KEY, &desc, &tok)` from the first page on. -/
def fdsRecordFind (flash : List Record) : Option Record := flash.find? isConfig

/-- `write_enqueue`, once it has accepted the operation. -/
def writeEnqueue (op : UInt32 → Op) (s : App) : App :=
  let recordId := s.mLatestRecId + 1
  { s with fds := s.fds.submit (op recordId), mLatestRecId := recordId, desc := recordId }

/-- `fds_init`, once it has accepted: the pages are scanned for the latest record id. -/
def fdsInit (s : App) : App :=
  { s with
    fds := s.fds.submit .init
    mLatestRecId := s.flash.foldl (fun latest r => max latest r.recordId) 0 }

/-- `write_execute` on `m_dummy_record`. -/
def writeExecute (recordId : UInt32) (place : Nat) (cfg : Configuration) (flash : List Record) :
    List Record :=
  flash.take place ++ ⟨recordId, configFile, configRecKey, cfg⟩ :: flash.drop place

/-- The flash after a successful operation. An update needs the record it replaces. -/
def execute (place : Nat) (cfg : Configuration) (flash : List Record) : Op → Option (List Record)
  | .init => some flash
  | .write recordId => some (writeExecute recordId place cfg flash)
  | .update recordId recordToDelete =>
    if flash.any (fun r => r.recordId = recordToDelete) then
      some (writeExecute recordId place cfg (flash.eraseP fun r => r.recordId = recordToDelete))
    else none
  | .gc => some flash

/-! ## The program -/

def fdsEvtHandler (id : EvtId) (result : UInt32) (s : App) : App :=
  match id with
  | .init => if result = nrfSuccess then { s with mFdsInitializedFalg := true } else s
  | .write => if result = nrfSuccess then { s with mFdsWriteFlag := true } else s
  | .delRecord => s
  | .update => if result = nrfSuccess then { s with mFdsUpdateFlag := true } else s
  | .gc => if result = nrfSuccess then { s with mFdsGcFlag := true } else s
  | .delFile => s

section

variable {id : EvtId} {result : UInt32} {s : App}

theorem fdsEvtHandler_failed (h : result ≠ nrfSuccess) : fdsEvtHandler id result s = s := by
  cases id <;> first | rfl | exact if_neg h

/-- The handler writes flags only. -/
theorem fdsEvtHandler_frame : (fdsEvtHandler id result s).pos = s.pos ∧
    (fdsEvtHandler id result s).fds = s.fds ∧
    (fdsEvtHandler id result s).mDummyCfg = s.mDummyCfg := by
  by_cases h : result = nrfSuccess
  · subst h
    cases id <;> exact ⟨rfl, rfl, rfl⟩
  · rw [fdsEvtHandler_failed h]
    exact ⟨rfl, rfl, rfl⟩

@[simp] theorem fdsEvtHandler_pos : (fdsEvtHandler id result s).pos = s.pos :=
  fdsEvtHandler_frame.1

@[simp] theorem fdsEvtHandler_fds : (fdsEvtHandler id result s).fds = s.fds :=
  fdsEvtHandler_frame.2.1

@[simp] theorem fdsEvtHandler_mDummyCfg : (fdsEvtHandler id result s).mDummyCfg = s.mDummyCfg :=
  fdsEvtHandler_frame.2.2

end

/-- `memcpy(dst, src, 16)` -/
def memcpy16 (dst : Vector UInt8 17) (src : Vector UInt8 16) : Vector UInt8 17 :=
  .ofFn fun i => if h : i < 16 then src[i] else dst[i]

def writeIdConfigInfo : UInt8 := 1

/-- `fds_once_storage` up to the first call of `my_fds_once_write`. -/
def fdsOnceStorage (flag : UInt8) (sensorBleCode sensorPassword : Vector UInt8 16) (s : App) :
    App :=
  if flag = writeIdConfigInfo then
    { s with
      pos := .fdsStat
      mDummyCfg := ⟨memcpy16 s.mDummyCfg.idBleCode sensorBleCode,
        memcpy16 s.mDummyCfg.password sensorPassword, 1⟩ }
  else { s with pos := .fdsStat }

/-- One loop of a wait. -/
def waitFor (flag : Bool) (next : Pos) (s : App) : App := if flag then { s with pos := next } else s

/-- From one call or wait to the next. -/
def mainStep (code : UInt32) (s : App) : Option App :=
  match s.pos with
  | .fdsInit => some (appErrorCheck code { fdsInit s with pos := .waitForFdsReady })
  | .waitForFdsReady => some (waitFor s.mFdsInitializedFalg .readWaitForFdsReady s)
  | .readWaitForFdsReady => some (waitFor s.mFdsInitializedFalg .readFdsStat s)
  | .readFdsStat => some (appErrorCheck code { s with desc := 0, pos := .readFdsRecordFind })
  | .readFdsRecordFind =>
    match fdsRecordFind s.flash with
    | some r => some { s with desc := r.recordId, pos := .readFdsRecordOpen }
    | none => some { s with pos := .readFdsRecordWrite }
  | .readFdsRecordOpen =>
    if code = nrfSuccess then
      (s.flash.find? fun r => r.recordId = s.desc).map fun config =>
        { s with mDummyCfg := config.data, pos := .readFdsRecordClose }
    else some (boot s.flash)
  | .readFdsRecordClose => some (appErrorCheck code { s with pos := .idle })
  | .readFdsRecordWrite => some (appErrorCheck code { writeEnqueue .write s with pos := .idle })
  | .idle => none
  | .fdsStat => some (appErrorCheck code { s with desc := 0, pos := .fdsRecordFind })
  | .fdsRecordFind =>
    match fdsRecordFind s.flash with
    | some r => some { s with desc := r.recordId, pos := .fdsRecordUpdate }
    | none => some { s with pos := .fdsRecordWrite }
  | .fdsRecordUpdate =>
    let s := { s with mFdsUpdateFlag := false }
    if code = nrfSuccess then
      some { writeEnqueue (.update · s.desc) s with pos := .waitForFdsUpdate s.fds.next }
    else some { s with pos := .fdsGc }
  | .waitForFdsUpdate _ => some (waitFor s.mFdsUpdateFlag .idle s)
  | .fdsGc =>
    let s := { s with mFdsGcFlag := false }
    some (appErrorCheck code
      { s with fds := s.fds.submit .gc, pos := .waitForFdsGc s.fds.next })
  | .waitForFdsGc _ => some (waitFor s.mFdsGcFlag .fdsRecordUpdateAgain s)
  | .fdsRecordUpdateAgain =>
    if code = nrfSuccess then
      some { writeEnqueue (.update · s.desc) s with pos := .waitForFdsUpdate s.fds.next }
    else some { s with pos := .idle }
  | .fdsRecordWrite =>
    let s := { s with mFdsWriteFlag := false }
    if code = nrfSuccess then
      some { writeEnqueue .write s with pos := .waitForFdsWrite s.fds.next }
    else some { s with pos := .idle }
  | .waitForFdsWrite _ => some (waitFor s.mFdsWriteFlag .idle s)

def step (s : App) : Event → Option App
  | .main code => mainStep code s
  | .fdsOnceStorage flag sensorBleCode sensorPassword =>
    if s.pos = .idle then some (fdsOnceStorage flag sensorBleCode sensorPassword s) else none
  | .done place =>
    (s.fds.complete nrfSuccess).bind fun (op, fds) =>
      (execute place s.mDummyCfg s.flash op).map fun flash => { s with fds := fds, flash := flash }
  | .failed result flash =>
    if result = nrfSuccess then none
    else (s.fds.complete result).map fun (_, fds) => { s with fds := fds, flash := flash }
  | .signal i =>
    (s.fds.report i).map fun (x, fds) => fdsEvtHandler x.1.2.evtId x.2 { s with fds := fds }

/-! ## What an event does -/

section

variable {s t : App}

theorem call_cases {flag : UInt8} {sensorBleCode sensorPassword : Vector UInt8 16}
    (h : step s (.fdsOnceStorage flag sensorBleCode sensorPassword) = some t) :
    s.pos = .idle ∧ t = fdsOnceStorage flag sensorBleCode sensorPassword s := by
  obtain ⟨hpos, ht⟩ := Option.ite_none_right_eq_some.mp h
  exact ⟨hpos, (Option.some.inj ht).symm⟩

theorem done_cases {place : Nat} (h : step s (.done place) = some t) :
    ∃ op fds flash, s.fds.complete nrfSuccess = some (op, fds) ∧
      execute place s.mDummyCfg s.flash op = some flash ∧
      t = { s with fds := fds, flash := flash } := by
  obtain ⟨⟨op, fds⟩, hc, hmap⟩ := Option.bind_eq_some_iff.mp h
  obtain ⟨flash, hx, rfl⟩ := Option.map_eq_some_iff.mp hmap
  exact ⟨op, fds, flash, hc, hx, rfl⟩

theorem failed_cases {result : UInt32} {flash : List Record}
    (h : step s (.failed result flash) = some t) :
    ∃ op fds, s.fds.complete result = some (op, fds) ∧
      t = { s with fds := fds, flash := flash } := by
  obtain ⟨-, hmap⟩ := Option.ite_none_left_eq_some.mp h
  obtain ⟨⟨op, fds⟩, hc, rfl⟩ := Option.map_eq_some_iff.mp hmap
  exact ⟨op, fds, hc, rfl⟩

theorem signal_cases {i : Nat} (h : step s (.signal i) = some t) :
    ∃ x fds, s.fds.report i = some (x, fds) ∧
      t = fdsEvtHandler x.1.2.evtId x.2 { s with fds := fds } := by
  obtain ⟨⟨x, fds⟩, hx, rfl⟩ := Option.map_eq_some_iff.mp h
  exact ⟨x, fds, hx, rfl⟩

end

/-- `my_flash_init` on empty flash: the record it writes is in the queue at the end. -/
def flashInit : List Event :=
  [.main 0, .done 0, .signal 0, .main 0, .main 0, .main 0, .main 0, .main 0]

/-- A call of `fds_once_storage` that finds no record, up to the wait for its write. -/
def storeFirst : List Event :=
  [.fdsOnceStorage 0 (.replicate 16 0) (.replicate 16 0), .main 0, .main 0, .main 0]

end BleCar.MyBle.Flash
