import BleCar.MyBle.Link

/-!
# The notification flag and the peer

`is_notification_enabled` is written where the peer writes the CCCD and nowhere else. The
CCCD is also cleared by the SoftDevice, when a link is established and when the
application sets the system attributes to their defaults; the flag then stays as the last
peer left it.
-/

namespace BleCar.MyBle.Notification

open BleCar.Lib.Runs
open BleCar.MyBle.Link

/-- On a link, the flag says what the CCCD says. -/
def Tracks (s : App) : Prop :=
  s.sd.up = true → s.isNotificationEnabled = bleSrvIsNotificationEnabled s.sd.cccd

/-- The events with which the SoftDevice clears the CCCD. -/
def Renews : Event → Prop
  | .connected indication assign => indication = nrfSuccess ∧ assign = nrfSuccess
  | .secParamsRequest reply attr => reply = nrfSuccess ∧ attr = nrfSuccess
  | .sysAttrMissing attr => attr = nrfSuccess
  | _ => False

/-- The CCCD is cleared only where the flag is down: the last peer that wrote the CCCD
turned notifications off. -/
def Clean (s : App) (e : Event) : Prop := Renews e → s.isNotificationEnabled = false

structure LinkInv (s : App) : Prop where
  tracks : Tracks s
  valid : s.sd.up = true → s.valid = true

theorem boot_linkInv : LinkInv boot where
  tracks h := absurd h (by decide)
  valid h := absurd h (by decide)

theorem timeout_sd (s : App) : (myTimeoutHandler s).1.sd = s.sd ∧
    (myTimeoutHandler s).1.valid = s.valid ∧
    (myTimeoutHandler s).1.isNotificationEnabled = s.isNotificationEnabled := by
  simp only [myTimeoutHandler]
  split_ifs <;> exact ⟨rfl, rfl, rfl⟩

theorem refused_not_renews {e : Event} (h : Refused e) : ¬ Renews e := by
  cases e <;> first | exact h | exact id

/-- One event: the flag still tracks the peer exactly if the CCCD was not cleared under a
raised flag. -/
theorem stepped_tracks {s t : App} {e : Event} (h : LinkInv s) (hs : Stepped s e t) :
    (Tracks t ↔ Clean s e) ∧ (t.sd.up = true → t.valid = true) := by
  have hoff : bleSrvIsNotificationEnabled 0 = false := by decide
  cases hs with
  | linked hup =>
    refine ⟨⟨fun ht _ => (ht rfl).trans hoff, fun hc _ => ?_⟩, fun _ => rfl⟩
    exact (hc ⟨rfl, rfl⟩).trans hoff.symm
  | unlinked hup =>
    have hdown : (disconnect s).sd.up = false := rfl
    refine ⟨⟨fun _ hr => hr.elim, fun _ ht => ?_⟩, fun ht => ?_⟩
    · rw [hdown] at ht; cases ht
    · rw [hdown] at ht; cases ht
  | cccd hup data hlen =>
    have hctx : blcmLinkCtxGet 0 { s with sd := { s.sd with cccd := uint16Decode data } } =
        nrfSuccess := by simp [blcmLinkCtxGet, h.valid hup]
    have heq : onWrite .txCccd data { s with sd := { s.sd with cccd := uint16Decode data } } =
        { s with
          sd := { s.sd with cccd := uint16Decode data }
          isNotificationEnabled := bleSrvIsNotificationEnabled (uint16Decode data) } := by
      rw [onWrite, if_pos ⟨rfl, hlen⟩, if_pos hctx]
    rw [heq]
    exact ⟨⟨fun _ hr => hr.elim, fun _ _ => rfl⟩, h.valid⟩
  | data hup data => exact ⟨⟨fun _ hr => hr.elim, fun _ => h.tracks⟩, h.valid⟩
  | ignored hup data => exact ⟨⟨fun _ hr => hr.elim, fun _ => h.tracks⟩, h.valid⟩
  | attrs hup e he =>
    have hren : Renews e := by
      rcases he with rfl | rfl
      · exact ⟨rfl, rfl⟩
      · rfl
    exact ⟨⟨fun ht _ => (ht hup).trans hoff, fun hc _ => (hc hren).trans hoff.symm⟩, h.valid⟩
  | ticked code =>
    obtain ⟨hsd, hvalid, hflag⟩ := timeout_sd s
    have htracks : Tracks (myTimeoutHandler s).1 := by
      rw [Tracks, hsd, hflag]
      exact h.tracks
    exact ⟨⟨fun _ hr => hr.elim, fun _ => htracks⟩, by rw [hsd, hvalid]; exact h.valid⟩
  | reset e he =>
    exact ⟨⟨fun _ hr => absurd hr (refused_not_renews he), fun _ => boot_linkInv.tracks⟩,
      boot_linkInv.valid⟩

/-- For every run: the flag tracks the current peer in every state exactly if it is down
whenever the CCCD is cleared. -/
theorem flag_tracks_iff (es : List Event) (t : App) (h : run step boot es = some t) :
    Always step Tracks boot es ↔ Along step Clean boot es := by
  refine always_iff_along (I := LinkInv) (fun s hs => hs.tracks) ?_ boot_linkInv
    (along_of_run step h)
  rintro s e hs ⟨u, hu⟩
  obtain ⟨hiff, hvalid⟩ := stepped_tracks hs (step_stepped hu)
  exact ⟨u, hu, hiff, fun hc => ⟨hiff.mpr hc, hvalid⟩⟩

theorem flag_tracks_iff_subscribed :
    Always step Tracks boot [.connected 0 0, .write .txCccd [1, 0], .tick 0] ↔
      Along step Clean boot [.connected 0 0, .write .txCccd [1, 0], .tick 0] :=
  flag_tracks_iff _ _ rfl

/-! ## The flag is what the last peer that wrote the CCCD asked for -/

instance : ∀ e, Decidable (Refused e)
  | .connected _ _ | .secParamsRequest _ _ | .sysAttrMissing _ => inferInstanceAs (Decidable (¬ _))
  | .disconnected | .write _ _ | .tick _ => isFalse id

/-- A write of the CCCD turns notifications on or off; a reset turns them off. -/
def asked : Event → List Bool
  | .write .txCccd data => [bleSrvIsNotificationEnabled (uint16Decode data)]
  | e => if Refused e then [false] else []

/-- One event sets the flag to what it asks for, or leaves it. -/
theorem stepped_asked {s t : App} {e : Event} (hv : s.sd.up = true → s.valid = true)
    (hs : Stepped s e t) : (t.sd.up = true → t.valid = true) ∧
      t.isNotificationEnabled = (asked e).getLast?.getD s.isNotificationEnabled := by
  cases hs with
  | linked => exact ⟨fun _ => rfl, rfl⟩
  | unlinked hup => exact ⟨fun _ => hv hup, rfl⟩
  | cccd hup data hlen =>
    have hctx : blcmLinkCtxGet 0 { s with sd := { s.sd with cccd := uint16Decode data } } =
        nrfSuccess := by simp [blcmLinkCtxGet, hv hup]
    rw [onWrite, if_pos ⟨rfl, hlen⟩, if_pos hctx]
    exact ⟨hv, rfl⟩
  | data => exact ⟨hv, rfl⟩
  | ignored => exact ⟨hv, rfl⟩
  | attrs hup e he => rcases he with rfl | rfl <;> exact ⟨hv, rfl⟩
  | ticked code =>
    obtain ⟨hsd, hvalid, hflag⟩ := timeout_sd s
    rw [hsd, hvalid, hflag]
    exact ⟨hv, rfl⟩
  | reset e he =>
    have hasked : asked e = [false] := by
      cases e with
      | write handle data => exact he.elim
      | disconnected => exact he.elim
      | tick code => exact he.elim
      | _ => exact if_pos he
    rw [hasked]
    exact ⟨boot_linkInv.valid, rfl⟩

/-- In every run the flag is up exactly if the last write of the CCCD since the last reset
turned notifications on. -/
theorem flag_last {es : List Event} {t : App} (h : run step boot es = some t) :
    t.isNotificationEnabled = (noted step (fun _ => asked) boot es).getLast?.getD false := by
  have hrun : (t.sd.up = true → t.valid = true) ∧
      t.isNotificationEnabled = (noted step (fun _ => asked) boot es).getLast?.getD false := by
    refine noted_of_step (I := fun s l => (s.sd.up = true → s.valid = true) ∧
      s.isNotificationEnabled = l.getLast?.getD false) ?_ (l := []) ⟨boot_linkInv.valid, rfl⟩ h
    rintro s l e u ⟨hv, hflag⟩ hu
    obtain ⟨hv', hasked⟩ := stepped_asked hv (step_stepped hu)
    refine ⟨hv', ?_⟩
    rw [hasked, hflag]
    cases hl : asked e using List.reverseRecOn <;> simp
  exact hrun.2

/-- A peer turns notifications on and leaves: the next one finds them on. -/
theorem stale_after_reconnect :
    ¬ ∀ (es : List Event) (t : App), run step boot es = some t → Tracks t := by
  intro h
  have ht := h [.connected 0 0, .write .txCccd [1, 0], .disconnected, .connected 0 0] _ rfl
  exact absurd (ht (by decide)) (by decide)

end BleCar.MyBle.Notification
