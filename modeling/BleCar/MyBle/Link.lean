import Mathlib.Data.List.GetD
import BleCar.Lib.Runs
import BleCar.Protocol.Frames

/-!
# The BLE link and its handlers

One peripheral link, on connection handle 0. Each event of the SoftDevice passes the
observers of `ble_conn_state.c`, of the service and of the application in this order; the
1 s timer is the fifth handler. A return code of the SoftDevice comes with the event in
which it is returned, and one that `APP_ERROR_CHECK` refuses resets the chip.
-/

namespace BleCar.MyBle.Link

open BleCar.Lib.Runs

def nrfSuccess : UInt32 := 0
def nrfErrorNoMem : UInt32 := 4
def nrfErrorNotFound : UInt32 := 5
def nrfErrorInvalidParam : UInt32 := 7
def nrfErrorInvalidState : UInt32 := 8
def nrfErrorBusy : UInt32 := 17
def nrfErrorResources : UInt32 := 19
def bleErrorGattsSysAttrMissing : UInt32 := 0x3401

def bleConnHandleInvalid : UInt16 := 0xFFFF

/-- What the SoftDevice keeps of the link. -/
structure SoftDevice where
  up : Bool
  /-- the CCCD of the TX characteristic -/
  cccd : UInt16
  /-- since the link was established -/
  sysAttrSet : Bool

structure App where
  sd : SoftDevice
  mConnHandle : UInt16
  /-- the flags of `ble_conn_state.c` for handle 0 -/
  valid : Bool
  connected : Bool
  /-- in context 0 of the service -/
  isNotificationEnabled : Bool
  gAppConnectFlag : UInt8
  gAppConnectTimeCount : UInt8

def boot : App := ⟨⟨false, 0, false⟩, bleConnHandleInvalid, false, false, false, 0, 0⟩

/-- The attributes a peer can write. -/
inductive Attr where
  | txCccd | rxValue | other
  deriving DecidableEq

inductive Characteristic where
  | tx | rx

/-- An event, with the codes the calls made for it return. -/
inductive Event where
  | connected (indication assign : UInt32)
  | disconnected
  | write (handle : Attr) (data : List UInt8)
  | secParamsRequest (reply attr : UInt32)
  | sysAttrMissing (attr : UInt32)
  | tick (disconnect : UInt32)

/-- `APP_ERROR_CHECK` on the way to `s`: the chip is reset unless the code is a success. -/
def appErrorCheck (code : UInt32) (s : App) : App := if code = nrfSuccess then s else boot

/-- `ble_conn_state_conn_idx` and the test for the number of links. -/
def blcmLinkCtxGet (connHandle : UInt16) (s : App) : UInt32 :=
  if ¬ (connHandle = 0 ∧ s.valid) then nrfErrorNotFound
  else if connHandle ≥ 1 then nrfErrorNoMem
  else nrfSuccess

def uint16Decode (data : List UInt8) : UInt16 :=
  (data.getD 0 0).toUInt16 ||| ((data.getD 1 0).toUInt16 <<< 8)

def bleSrvIsNotificationEnabled (cccd : UInt16) : Bool := cccd &&& 1 ≠ 0

/-- `sd_ble_gatts_value_get` on the `cccd_handle` of a characteristic: RX has none. -/
def cccdGet (sd : SoftDevice) : Characteristic → Option UInt16
  | .tx => some sd.cccd
  | .rx => none

/-! ## The handlers -/

/-- `on_connect` asks for the CCCD of RX. -/
def onConnect (s : App) : App :=
  match cccdGet s.sd .rx with
  | none => s
  | some cccd =>
    if bleSrvIsNotificationEnabled cccd ∧ blcmLinkCtxGet 0 s = nrfSuccess then
      { s with isNotificationEnabled := true }
    else s

/-- `uarts_data_handler`, but for the bytes it puts to the UART. -/
def uartsDataHandler (s : App) : App := { s with gAppConnectTimeCount := 0 }

def onWrite (handle : Attr) (data : List UInt8) (s : App) : App :=
  if handle = .txCccd ∧ data.length = 2 then
    if blcmLinkCtxGet 0 s = nrfSuccess then
      { s with isNotificationEnabled := bleSrvIsNotificationEnabled (uint16Decode data) }
    else s
  else if handle = .rxValue then uartsDataHandler s
  else s

/-- `BLE_GAP_EVT_CONNECTED` in `ble_evt_handler`. -/
def onConnected (indication assign : UInt32) (s : App) : App :=
  if indication = nrfSuccess then
    appErrorCheck assign
      { s with gAppConnectFlag := 1, gAppConnectTimeCount := 0, mConnHandle := 0 }
  else boot

/-- `BLE_GAP_EVT_DISCONNECTED` in `ble_evt_handler`. -/
def onDisconnected (s : App) : App :=
  { s with mConnHandle := bleConnHandleInvalid, gAppConnectFlag := 0, gAppConnectTimeCount := 0 }

/-- `sd_ble_gatts_sys_attr_set(m_conn_handle, NULL, 0, 0)`. -/
def onSysAttrMissing (attr : UInt32) (s : App) : App :=
  appErrorCheck attr { s with sd := { s.sd with cccd := 0, sysAttrSet := true } }

/-- The case has no `break`: it goes on with `BLE_GATTS_EVT_SYS_ATTR_MISSING`. -/
def onSecParamsRequest (reply attr : UInt32) (s : App) : App :=
  if reply = nrfSuccess then onSysAttrMissing attr s else boot

/-- Whether a disconnect is requested; its result is only logged. -/
def myBleDisconnect (s : App) : Bool := s.gAppConnectFlag ≠ 0

/-- The new state, and whether a disconnect was requested on the way. -/
def myTimeoutHandler (s : App) : App × Bool :=
  if s.gAppConnectFlag = 1 then
    let s := { s with gAppConnectTimeCount := s.gAppConnectTimeCount + 1 }
    if s.gAppConnectTimeCount ≥ 30 then
      ({ s with gAppConnectTimeCount := 0, gAppConnectFlag := 0 }, myBleDisconnect s)
    else (s, false)
  else ({ s with gAppConnectTimeCount := 0 }, false)

/-! ## The link -/

/-- The observers on a new link, whose CCCD the SoftDevice has cleared. -/
def connect (indication assign : UInt32) (s : App) : App :=
  onConnected indication assign
    (onConnect { s with sd := ⟨true, 0, false⟩, valid := true, connected := true })

/-- The record of the link stays valid until the next connection. -/
def disconnect (s : App) : App :=
  onDisconnected { s with sd := { s.sd with up := false }, connected := false }

/-- A write of the peer; the SoftDevice takes two bytes for a CCCD. -/
def write (handle : Attr) (data : List UInt8) (s : App) : Option App :=
  if handle = .txCccd then
    if data.length = 2 then
      some (onWrite handle data { s with sd := { s.sd with cccd := uint16Decode data } })
    else none
  else some (onWrite handle data s)

/-- `none` for an event the SoftDevice does not raise in this state of the link. -/
def step (s : App) : Event → Option App
  | .connected indication assign => if s.sd.up then none else some (connect indication assign s)
  | .disconnected => if s.sd.up then some (disconnect s) else none
  | .write handle data => if s.sd.up then write handle data s else none
  | .secParamsRequest reply attr => if s.sd.up then some (onSecParamsRequest reply attr s) else none
  | .sysAttrMissing attr => if s.sd.up then some (onSysAttrMissing attr s) else none
  | .tick _ => some (myTimeoutHandler s).1

/-! ## What the events do -/

section

variable {s t : App}

/-- A new link, once both checks of the handler have passed. -/
def linked (s : App) : App where
  sd := ⟨true, 0, false⟩
  mConnHandle := 0
  valid := true
  connected := true
  isNotificationEnabled := s.isNotificationEnabled
  gAppConnectFlag := 1
  gAppConnectTimeCount := 0

/-- The attributes of the link are back at their defaults. -/
def attrsSet (s : App) : App := { s with sd := { s.sd with cccd := 0, sysAttrSet := true } }

theorem connect_eq (indication assign : UInt32) (s : App) :
    connect indication assign s =
      if indication = nrfSuccess ∧ assign = nrfSuccess then linked s else boot := by
  by_cases hi : indication = nrfSuccess
  · by_cases ha : assign = nrfSuccess
    · rw [if_pos ⟨hi, ha⟩]
      exact (if_pos hi).trans (if_pos ha)
    · rw [if_neg fun h => ha h.2]
      exact (if_pos hi).trans (if_neg ha)
  · rw [if_neg fun h => hi h.1]
    exact if_neg hi

theorem onSysAttrMissing_eq (attr : UInt32) (s : App) :
    onSysAttrMissing attr s = if attr = nrfSuccess then attrsSet s else boot := rfl

theorem onSecParamsRequest_eq (reply attr : UInt32) (s : App) :
    onSecParamsRequest reply attr s =
      if reply = nrfSuccess ∧ attr = nrfSuccess then attrsSet s else boot := by
  by_cases hr : reply = nrfSuccess
  · by_cases ha : attr = nrfSuccess
    · rw [if_pos ⟨hr, ha⟩]
      exact (if_pos hr).trans (if_pos ha)
    · rw [if_neg fun h => ha h.2]
      exact (if_pos hr).trans (if_neg ha)
  · rw [if_neg fun h => hr h.1]
    exact if_neg hr

/-- One of the codes of the event is refused by `APP_ERROR_CHECK`. -/
def Refused : Event → Prop
  | .connected indication assign => ¬ (indication = nrfSuccess ∧ assign = nrfSuccess)
  | .secParamsRequest reply attr => ¬ (reply = nrfSuccess ∧ attr = nrfSuccess)
  | .sysAttrMissing attr => attr ≠ nrfSuccess
  | _ => False

/-- Everything a step can do. -/
inductive Stepped (s : App) : Event → App → Prop where
  | linked (h : s.sd.up = false) : Stepped s (.connected nrfSuccess nrfSuccess) (linked s)
  | unlinked (h : s.sd.up = true) : Stepped s .disconnected (disconnect s)
  | cccd (h : s.sd.up = true) (data : List UInt8) (hlen : data.length = 2) :
      Stepped s (.write .txCccd data)
        (onWrite .txCccd data { s with sd := { s.sd with cccd := uint16Decode data } })
  | data (h : s.sd.up = true) (data : List UInt8) :
      Stepped s (.write .rxValue data) (uartsDataHandler s)
  | ignored (h : s.sd.up = true) (data : List UInt8) : Stepped s (.write .other data) s
  | attrs (h : s.sd.up = true) (e : Event)
      (he : e = .secParamsRequest nrfSuccess nrfSuccess ∨ e = .sysAttrMissing nrfSuccess) :
      Stepped s e (attrsSet s)
  | ticked (code : UInt32) : Stepped s (.tick code) (myTimeoutHandler s).1
  | reset (e : Event) (he : Refused e) : Stepped s e boot

theorem write_stepped {handle : Attr} {data : List UInt8} (hup : s.sd.up = true)
    (h : write handle data s = some t) : Stepped s (.write handle data) t := by
  cases handle with
  | txCccd =>
    obtain ⟨hlen, heq⟩ := Option.ite_none_right_eq_some.mp ((if_pos rfl).symm.trans h)
    exact Option.some.inj heq ▸ .cccd hup data hlen
  | rxValue => exact Option.some.inj h ▸ .data hup data
  | other => exact Option.some.inj h ▸ .ignored hup data

theorem step_stepped {e : Event} (h : step s e = some t) : Stepped s e t := by
  cases e with
  | connected indication assign =>
    obtain ⟨hup, heq⟩ := Option.ite_none_left_eq_some.mp h
    obtain rfl := Option.some.inj heq
    rw [connect_eq]
    split
    case isTrue hc =>
      obtain ⟨rfl, rfl⟩ := hc
      exact .linked (Bool.eq_false_iff.mpr hup)
    case isFalse hc => exact .reset _ hc
  | disconnected =>
    obtain ⟨hup, heq⟩ := Option.ite_none_right_eq_some.mp h
    exact Option.some.inj heq ▸ .unlinked hup
  | write handle data =>
    obtain ⟨hup, hw⟩ := Option.ite_none_right_eq_some.mp h
    exact write_stepped hup hw
  | secParamsRequest reply attr =>
    obtain ⟨hup, heq⟩ := Option.ite_none_right_eq_some.mp h
    obtain rfl := Option.some.inj heq
    rw [onSecParamsRequest_eq]
    split
    case isTrue hc =>
      obtain ⟨rfl, rfl⟩ := hc
      exact .attrs hup _ (.inl rfl)
    case isFalse hc => exact .reset _ hc
  | sysAttrMissing attr =>
    obtain ⟨hup, heq⟩ := Option.ite_none_right_eq_some.mp h
    obtain rfl := Option.some.inj heq
    rw [onSysAttrMissing_eq]
    split
    case isTrue hc =>
      subst hc
      exact .attrs hup _ (.inr rfl)
    case isFalse hc => exact .reset _ hc
  | tick code => exact Option.some.inj h ▸ .ticked code

end

end BleCar.MyBle.Link
