import Mathlib.Data.List.Basic
import Mathlib.Tactic
import Kitakami.Base.Strings

/-!
# Subscribers

The clients of the AGPS resource of `loc_eng_agps.h`: ATL clients of the modem,
the BIT daemon, Wi-Fi clients and data service clients. A subscriber decides by
itself which notifications are for it and which of the engine's calls it
answers them with.
-/

namespace Kitakami
namespace Agps

/-- `AgpsRsrcStatus`. -/
inductive RsrcStatus
  | subscribe | unsubscribe | granted | released | denied | max
  deriving DecidableEq

/-- The classes derived from `Subscriber`. -/
inductive Kind
  | atl | bit | wifi | ds
  deriving DecidableEq

/-- `strlcpy` into a buffer of `size` bytes. -/
def strlcpy (src : Str) (size : ℕ) : Str := (src.takeWhile (· ≠ 0)).take (size-1)

def ssidBufSize : ℕ := 32+1

def inaddrNone : UInt32 := 0xffffffff

/-- `loc_if_req_sender_id_e_type`. -/
inductive SenderId
  | quipc | msapm | msapu | gpsoneDaemon | modem | unknown
  deriving DecidableEq

def SenderId.toUInt32 : SenderId → UInt32
  | .quipc => 0
  | .msapm => 1
  | .msapu => 2
  | .gpsoneDaemon => 3
  | .modem => 4
  | .unknown => 5

theorem SenderId.toUInt32_ne (i : SenderId) : i.toUInt32 ≠ inaddrNone := by
  cases i <;> decide

/-- `strncmp` over as many bytes as both arguments have. -/
def strncmp : List UInt8 → List UInt8 → ℤ
  | a::as, b::bs =>
    if a ≠ b then (a.toNat : ℤ) - b.toNat
    else if a = 0 then 0
    else strncmp as bs
  | _, _ => 0

/-- An address of user space, its bytes as they stand in memory; two zero bytes follow them. -/
abbrev Pointer := Vector UInt8 6

/-- A `Subscriber` with the members of its class; the state machine it points
to is the one whose list it is in. -/
inductive Subscriber
  | atl (id : UInt32) (mLocAdapter : Pointer) (mBackwardCompatibleMode : Bool)
  | bit (id : UInt32) (mIPv6Addr : Vector UInt8 16)
  | wifi (mSSID mPassword : Option Str) (senderId : SenderId) (mIsInactive : Bool)
  | ds (id : UInt32) (mIsInactive : Bool)
  deriving DecidableEq

/-- An ATL client with an adapter somewhere in memory. -/
def atlWith (id : UInt32) : Subscriber := .atl id #v[0,0x10,0,0xb4,0,0] false

/-- A BIT client with the IPv4 address 10.0.0.1. -/
def ipv4Client : Subscriber := .bit 0x0a000001 (Vector.replicate 16 0)

namespace Subscriber

/-- The constructor of `WIFISubscriber`. -/
def newWifi (ssid password : Option Str) (senderId : SenderId) : Subscriber :=
  .wifi (ssid.map (strlcpy · ssidBufSize)) (password.map (strlcpy · ssidBufSize)) senderId false

def kind : Subscriber → Kind
  | .atl _ _ _ => .atl
  | .bit _ _ => .bit
  | .wifi _ _ _ _ => .wifi
  | .ds _ _ => .ds

/-- The member `ID`. -/
def id : Subscriber → UInt32
  | .atl id _ _ => id
  | .bit id _ => id
  | .wifi _ _ senderId _ => senderId.toUInt32
  | .ds id _ => id

/-- What `BITSubscriber::equals` takes for `mIPv6Addr`. In an `ATLSubscriber` the pointer to the
adapter stands there. It is not read in a `WIFISubscriber`, whose ID is never `INADDR_NONE`, and BIT
and DS clients share no machine. -/
def ipv6 : Subscriber → List UInt8
  | .bit _ addr => addr.toList
  | .atl _ adapter _ => adapter.toList ++ [0]
  | .wifi _ _ _ _ | .ds _ _ => []

/-- The virtual `equals`. The override for BIT takes the other subscriber for one of its class. -/
def equals : Subscriber → Subscriber → Bool
  | .bit id addr, t => id == t.id && (inaddrNone != id || strncmp addr.toList t.ipv6 == 0)
  | s, t => s.id == t.id

def waitForCloseComplete : Subscriber → Bool
  | .atl _ _ _ => false
  | .bit _ _ => false
  | .wifi _ _ _ _ => true
  | .ds _ _ => true

def isInactive : Subscriber → Bool
  | .atl _ _ _ => false
  | .bit _ _ => false
  | .wifi _ _ _ mIsInactive => mIsInactive
  | .ds _ mIsInactive => mIsInactive

/-- The flag that `setInactive` raises. -/
def setInactive : Subscriber → Subscriber
  | .atl id adapter mode => .atl id adapter mode
  | .bit id addr => .bit id addr
  | .wifi ssid password senderId _ => .wifi ssid password senderId true
  | .ds id _ => .ds id true

def clone : Subscriber → Subscriber
  | .atl id adapter mode => .atl id adapter mode
  | .bit id addr => .bit id addr
  | .wifi ssid password senderId _ => newWifi ssid password senderId
  | .ds id _ => .ds id false

/-- `setWifiInfo`: the two strings that go into a request. -/
def wifiInfo : Subscriber → Str × Str
  | .wifi ssid password _ _ =>
    ((ssid.map (strlcpy · ssidBufSize)).getD [],(password.map (strlcpy · ssidBufSize)).getD [])
  | _ => ([],[])

variable {s t : Subscriber}

@[simp] theorem kind_setInactive (s : Subscriber) : s.setInactive.kind = s.kind := by
  cases s <;> rfl

@[simp] theorem kind_clone (s : Subscriber) : s.clone.kind = s.kind := by
  cases s <;> rfl

@[simp] theorem isInactive_clone (s : Subscriber) : s.clone.isInactive = false := by
  cases s <;> rfl

/-- Only a subscriber that waits for the close to complete can be inactive. -/
theorem waits_of_isInactive {s : Subscriber} (h : s.isInactive) : s.waitForCloseComplete := by
  cases s <;> first | rfl | cases h

/-! ## Equality of subscribers -/

theorem strncmp_self (as : List UInt8) : strncmp as as = 0 := by
  induction as with
  | nil => rfl
  | cons a as ih => simp [strncmp,ih]

theorem strncmp_eq_zero_iff (as bs : List UInt8) (h : as.length = bs.length) :
    strncmp as bs = 0 ↔ as.takeWhile (· ≠ 0) = bs.takeWhile (· ≠ 0) := by
  induction as generalizing bs with
  | nil =>
    cases bs with
    | nil => simp [strncmp]
    | cons b bs => cases h
  | cons a as ih =>
    cases bs with
    | nil => cases h
    | cons b bs =>
      by_cases hab : a = b
      · subst hab
        by_cases ha : a = 0
        · simp [strncmp,ha]
        · simp [strncmp,ha,ih bs (by simpa using h)]
      · have hne : (a.toNat : ℤ) - b.toNat ≠ 0 := fun hz => hab (UInt8.toNat_inj.mp (by omega))
        have htake : (a::as).takeWhile (· ≠ 0) ≠ (b::bs).takeWhile (· ≠ 0) := by
          by_cases ha : a = 0 <;> by_cases hb : b = 0 <;> simp_all
        simpa [strncmp,hab,hne] using htake

theorem equals_refl (s : Subscriber) : s.equals s := by
  cases s with
  | bit id addr => simp [equals,ipv6,strncmp_self,Subscriber.id]
  | _ => simp [equals]

/-- Equal subscribers have the same ID. -/
theorem id_of_equals (h : s.equals t) : s.id = t.id := by
  cases s with
  | bit id addr =>
    simp only [equals,Bool.and_eq_true,beq_iff_eq] at h
    exact h.1
  | _ => simpa [equals] using h

/-- Where the IDs are the same, only a BIT subscriber without an IPv4 address looks further. -/
theorem equals_of_id (h : s.id = t.id) (hs : s.kind = .bit → s.id ≠ inaddrNone) : s.equals t := by
  cases s with
  | bit id addr =>
    have hid : id = t.id := h
    have hne : inaddrNone ≠ id := (hs rfl).symm
    simp [equals,← hid,hne]
  | _ => simpa [equals] using h

/-- What `equals` looks at in its argument. -/
theorem equals_congr {t' : Subscriber} (hid : t'.id = t.id) (haddr : t'.ipv6 = t.ipv6) :
    s.equals t' = s.equals t := by
  cases s <;> simp [equals,hid,haddr]

@[simp] theorem id_clone (s : Subscriber) : s.clone.id = s.id := by
  cases s <;> rfl

@[simp] theorem ipv6_clone (s : Subscriber) : s.clone.ipv6 = s.ipv6 := by
  cases s <;> rfl

@[simp] theorem id_setInactive (s : Subscriber) : s.setInactive.id = s.id := by
  cases s <;> rfl

@[simp] theorem ipv6_setInactive (s : Subscriber) : s.setInactive.ipv6 = s.ipv6 := by
  cases s <;> rfl

@[simp] theorem equals_clone_right (s t : Subscriber) : s.equals t.clone = s.equals t :=
  equals_congr (id_clone t) (ipv6_clone t)

@[simp] theorem equals_setInactive_right (s t : Subscriber) :
    s.equals t.setInactive = s.equals t :=
  equals_congr (id_setInactive t) (ipv6_setInactive t)

@[simp] theorem equals_clone_left (s t : Subscriber) : s.clone.equals t = s.equals t := by
  cases s <;> rfl

@[simp] theorem equals_setInactive_left (s t : Subscriber) :
    s.setInactive.equals t = s.equals t := by
  cases s <;> rfl

theorem equals_clone (s : Subscriber) : s.clone.equals s := by
  rw [equals_clone_left]
  exact equals_refl s

/-- Within a class `equals` compares in both directions alike. -/
theorem equals_comm (h : s.kind = t.kind) : s.equals t = t.equals s := by
  cases s with
  | bit id addr =>
    cases t with
    | bit id' addr' =>
      have hl : addr.toList.length = addr'.toList.length := by simp
      have hcmp : strncmp addr.toList addr'.toList = 0 ↔ strncmp addr'.toList addr.toList = 0 := by
        rw [strncmp_eq_zero_iff _ _ hl,strncmp_eq_zero_iff _ _ hl.symm,eq_comm]
      by_cases hid : id = id'
      · subst hid
        rw [Bool.eq_iff_iff]
        simp [equals,ipv6,Subscriber.id,hcmp]
      · have hne : (id == id') = false := beq_false_of_ne hid
        have hne' : (id' == id) = false := beq_false_of_ne (Ne.symm hid)
        simp [equals,Subscriber.id,hne,hne']
    | _ => cases h
  | _ =>
    cases t <;> first
      | exact BEq.comm
      | cases h

end Subscriber

/-- The groups of a broadcast notification. -/
inductive Group
  | all | active | inactive
  deriving DecidableEq

/-- Whom a `Notification` is for: `rcver`, or a group when that is null. The receiver is a
subscriber of the caller's or, as `entry`, the first one on the list with these members. -/
inductive Receiver
  | rcver (s : Subscriber)
  | entry (s : Subscriber)
  | group (groupID : Group)
  deriving DecidableEq

structure Notification where
  receiver : Receiver
  rsrcStatus : RsrcStatus := .max
  postNotifyDelete : Bool := false

/-- The notification once `s` is deleted. If it is the receiver, the memory that `rcver` points to
is read as `freed` from then on. -/
def Notification.afterDelete (n : Notification) (s freed : Subscriber) : Notification :=
  match n.receiver with
  | .entry t => if t = s then {n with receiver := .rcver freed} else n
  | _ => n

/-- `Subscriber::forMe`. -/
def Subscriber.forMe (s : Subscriber) : Receiver → Bool
  | .rcver t | .entry t => s.equals t
  | .group .all => true
  | .group .active => !s.isInactive
  | .group .inactive => s.isInactive

/-- The statuses that the switches of `notifyRsrcStatus` know. -/
def RsrcStatus.known : RsrcStatus → Bool
  | .unsubscribe | .released | .denied | .granted => true
  | .subscribe | .max => false

end Agps
end Kitakami
