import CosiCoin.OrderedMaps
import CosiCoin.TransactionModel

/-!
# COSICOIN: the settings

The class `Settings` of lib/config.  The validators stand in a `std::map` under
their ids.  Three getters read this map by subscript: `getLeaderInfo`,
`getLeaderAddress` and `getValidatorInfo` give an id without an entry a default
one, which is counted and listed from then on.  `getMyValidatorInfo` searches
for the entry first.

A node takes n and f from the settings after it has read the port of its own
entry, so a node whose id is not configured counts one validator too many.
-/

namespace CosiCoin

open OrderedMaps

instance isTransUInt32Lt : IsTrans UInt32 (· < ·) :=
  ⟨fun _ _ _ => UInt32.lt_trans⟩

/-- `AddressInfo`; `{}` is the value-initialized one. -/
structure AddressInfo where
  id : UInt32 := 0
  address : Str := []
  port : Int32 := 0
  faulty : Bool := false
deriving DecidableEq

instance : Inhabited AddressInfo :=
  ⟨{}⟩

/-- `Settings`. -/
structure Settings where
  leaderId : UInt32
  validators : OrderedMap UInt32 AddressInfo
  wallets : List UInt32
  myValidatorId : UInt32
  myWalletId : UInt32

namespace Settings

/-- The constructor from a list of validators. -/
def new (validators : List AddressInfo) (leaderId : UInt32) (wallets : List UInt32)
    (myValidatorId myWalletId : UInt32) : Settings where
  leaderId := leaderId
  validators := validators.foldl (fun m info => m.assign info.id info) {}
  wallets := wallets
  myValidatorId := myValidatorId
  myWalletId := myWalletId

/-- `Settings::to_address`. -/
def toAddress (ipAddr : Str) (port : UInt32) : Str :=
  ipAddr ++ [58] ++ decimal port.toNat

/-- `to_address` of an entry; the port is converted to `uint32_t`. -/
def addressOf (info : AddressInfo) : Str :=
  toAddress info.address info.port.toUInt32

/-- `Settings::getValidatorInfo`. -/
def getValidatorInfo (s : Settings) (validatorId : UInt32) : AddressInfo × Settings :=
  let (info, validators) := s.validators.subscript validatorId
  (info, { s with validators := validators })

/-- `Settings::getLeaderInfo`. -/
def getLeaderInfo (s : Settings) : AddressInfo × Settings :=
  s.getValidatorInfo s.leaderId

/-- `Settings::getLeaderAddress`. -/
def getLeaderAddress (s : Settings) : Str × Settings :=
  let (leader, s) := s.getLeaderInfo
  (addressOf leader, s)

/-- `Settings::getValidators`. -/
def getValidators (s : Settings) : List AddressInfo :=
  s.validators.values

/-- `Settings::getValidatorAdresses`. -/
def getValidatorAdresses (s : Settings) : List Str :=
  s.validators.values.map addressOf

/-- `Settings::getTotalNumberOfValidators`. -/
def getTotalNumberOfValidators (s : Settings) : Int32 :=
  Int32.ofNat s.validators.size

/-- `Settings::getNumberOfFaultyValidators`. -/
def getNumberOfFaultyValidators (s : Settings) : Int32 :=
  Int32.ofNat (s.validators.values.countP AddressInfo.faulty)

/-- `Settings::getMyValidatorInfo`. -/
def getMyValidatorInfo (s : Settings) : AddressInfo × Settings :=
  match s.validators.find s.myValidatorId with
  | none => ({}, s)
  | some _ => s.getValidatorInfo s.myValidatorId

/-- `Settings::getMyValidatorAddress`. -/
def getMyValidatorAddress (s : Settings) : Str × Settings :=
  let (info, s) := s.getMyValidatorInfo
  (addressOf info, s)

/-- The id has an entry. -/
def IsConfigured (s : Settings) (id : UInt32) : Prop :=
  s.validators.find id ≠ none

instance (s : Settings) (id : UInt32) : Decidable (s.IsConfigured id) :=
  inferInstanceAs (Decidable (_ ≠ none))

theorem getValidatorInfo_of_configured
    {s : Settings} {id : UInt32}
    (h : s.IsConfigured id) :
    (s.getValidatorInfo id).2 = s := by
  show { s with validators := (s.validators.subscript id).2 } = s
  rw [OrderedMap.subscript_snd_of_find h]

theorem size_getValidatorInfo
    {s : Settings} {id : UInt32}
    (h : ¬ s.IsConfigured id) :
    (s.getValidatorInfo id).2.validators.size = s.validators.size + 1 :=
  OrderedMap.size_subscript_of_find_eq_none (not_not.mp h)

theorem getMyValidatorInfo_snd
    (s : Settings) :
    s.getMyValidatorInfo.2 = s := by
  unfold getMyValidatorInfo
  cases hfind : s.validators.find s.myValidatorId with
  | none => rfl
  | some info =>
      have hconfigured : s.IsConfigured s.myValidatorId := by
        rw [IsConfigured, hfind]
        exact Option.some_ne_none info
      exact getValidatorInfo_of_configured hconfigured

end Settings

/-- A call of a public getter. -/
inductive SettingsCall where
  | getLeaderInfo
  | getValidatorInfo (validatorId : UInt32)
  | getValidators
  | getValidatorAdresses
  | getLeaderAddress
  | getWallets
  | getTotalNumberOfValidators
  | getNumberOfFaultyValidators
  | getLeaderID
  | getMyValidatorID
  | getMyWalletID
  | getMyValidatorInfo
  | getMyValidatorAddress

/-- What a getter returns. -/
inductive SettingsAnswer where
  | info (i : AddressInfo)
  | infos (l : List AddressInfo)
  | address (a : Str)
  | addresses (l : List Str)
  | number (n : Int32)
  | id (i : UInt32)
  | ids (l : List UInt32)

namespace Settings

/-- One getter call: its answer, and the settings it leaves. -/
def call (s : Settings) : SettingsCall → SettingsAnswer × Settings
  | .getLeaderInfo => s.getLeaderInfo.map .info id
  | .getValidatorInfo validatorId => (s.getValidatorInfo validatorId).map .info id
  | .getValidators => (.infos s.getValidators, s)
  | .getValidatorAdresses => (.addresses s.getValidatorAdresses, s)
  | .getLeaderAddress => s.getLeaderAddress.map .address id
  | .getWallets => (.ids s.wallets, s)
  | .getTotalNumberOfValidators => (.number s.getTotalNumberOfValidators, s)
  | .getNumberOfFaultyValidators => (.number s.getNumberOfFaultyValidators, s)
  | .getLeaderID => (.id s.leaderId, s)
  | .getMyValidatorID => (.id s.myValidatorId, s)
  | .getMyWalletID => (.id s.myWalletId, s)
  | .getMyValidatorInfo => s.getMyValidatorInfo.map .info id
  | .getMyValidatorAddress => s.getMyValidatorAddress.map .address id

/-- The settings after a sequence of getter calls. -/
def calls (s : Settings) (cs : List SettingsCall) : Settings :=
  cs.foldl (fun s c => (s.call c).2) s

/-- The id a call reads by subscript without having searched for it. -/
def subscriptOf (s : Settings) : SettingsCall → Option UInt32
  | .getLeaderInfo | .getLeaderAddress => some s.leaderId
  | .getValidatorInfo validatorId => some validatorId
  | _ => none

/-- A call leaves the settings alone, or reads an id by subscript. -/
theorem call_snd
    (s : Settings)
    (c : SettingsCall) :
    (s.call c).2 =
      match s.subscriptOf c with
      | some id => (s.getValidatorInfo id).2
      | none => s := by
  cases c with
  | getMyValidatorInfo => exact s.getMyValidatorInfo_snd
  | getMyValidatorAddress => exact s.getMyValidatorInfo_snd
  | _ => rfl

/-- The call reads no id by subscript that has no entry. -/
def Reads (s : Settings) (c : SettingsCall) : Prop :=
  ∀ id, s.subscriptOf c = some id → s.IsConfigured id

theorem call_of_reads
    {s : Settings} {c : SettingsCall}
    (h : s.Reads c) :
    (s.call c).2 = s := by
  rw [call_snd]
  cases hid : s.subscriptOf c with
  | none => rfl
  | some id => exact getValidatorInfo_of_configured (h id hid)

theorem size_call_of_not_reads
    {s : Settings} {c : SettingsCall}
    (h : ¬ s.Reads c) :
    (s.call c).2.validators.size = s.validators.size + 1 := by
  simp only [Reads, not_forall] at h
  obtain ⟨id, hid, hconfigured⟩ := h
  rw [call_snd, hid]
  exact size_getValidatorInfo hconfigured

theorem size_le_call
    (s : Settings)
    (c : SettingsCall) :
    s.validators.size ≤ (s.call c).2.validators.size := by
  by_cases h : s.Reads c
  · have hsame : (s.call c).2.validators.size = s.validators.size := by
      rw [call_of_reads h]
    exact Nat.le_of_eq hsame.symm
  · rw [size_call_of_not_reads h]
    exact Nat.le_succ _

theorem size_le_calls
    (s : Settings)
    (cs : List SettingsCall) :
    s.validators.size ≤ (s.calls cs).validators.size := by
  induction cs generalizing s with
  | nil => exact Nat.le_refl _
  | cons c cs ih => exact Nat.le_trans (s.size_le_call c) (ih _)

/-- Calls that only read leave the settings alone, others leave more entries. -/
theorem calls_cases
    (s : Settings)
    (cs : List SettingsCall) :
    ((∀ c ∈ cs, s.Reads c) ∧ s.calls cs = s) ∨
      ((¬ ∀ c ∈ cs, s.Reads c) ∧ s.validators.size < (s.calls cs).validators.size) := by
  induction cs with
  | nil => exact Or.inl ⟨fun c hc => absurd hc List.not_mem_nil, rfl⟩
  | cons c cs ih =>
      have hcons : s.calls (c :: cs) = (s.call c).2.calls cs := rfl
      by_cases hc : s.Reads c
      · rw [hcons, call_of_reads hc]
        rcases ih with ⟨hall, hsame⟩ | ⟨hnot, hmore⟩
        · exact Or.inl ⟨List.forall_mem_cons.mpr ⟨hc, hall⟩, hsame⟩
        · exact Or.inr ⟨fun h => hnot (List.forall_mem_cons.mp h).2, hmore⟩
      · refine Or.inr ⟨fun h => hc (List.forall_mem_cons.mp h).1, ?_⟩
        have hfirst := size_call_of_not_reads hc
        have hrest := (s.call c).2.size_le_calls cs
        rw [hcons]
        omega

/-- The readings about the validators are the same. -/
structure SameReadings (s s' : Settings) : Prop where
  total : s'.getTotalNumberOfValidators = s.getTotalNumberOfValidators
  faulty : s'.getNumberOfFaultyValidators = s.getNumberOfFaultyValidators
  validators : s'.getValidators = s.getValidators
  adresses : s'.getValidatorAdresses = s.getValidatorAdresses

/-- The readings are unchanged exactly by calls that only read. -/
theorem sameReadings_calls_iff
    (s : Settings)
    (cs : List SettingsCall) :
    s.SameReadings (s.calls cs) ↔ ∀ c ∈ cs, s.Reads c := by
  rcases s.calls_cases cs with ⟨hall, hsame⟩ | ⟨hnot, hmore⟩
  · rw [hsame]
    exact ⟨fun _ => hall, fun _ => ⟨rfl, rfl, rfl, rfl⟩⟩
  · refine ⟨fun h => ?_, fun h => absurd h hnot⟩
    have hlen := congrArg List.length h.validators
    simp only [getValidators, OrderedMap.length_values] at hlen
    omega

/--
The constructor of `Node`: `port_`, `n_` and `f_`, in the order in which they
are taken from the settings.  The client was built from a copy before.
-/
def nodeParameters (s : Settings) (id : UInt16) : Int32 × UInt16 × UInt16 :=
  let (info, s) := s.getValidatorInfo id.toUInt32
  (info.port, s.getTotalNumberOfValidators.toUInt32.toUInt16,
    s.getNumberOfFaultyValidators.toUInt32.toUInt16)

/-- The node counts as many validators and faulty ones as are configured. -/
def TakesConfigured (s : Settings) (id : UInt16) : Prop :=
  (s.nodeParameters id).2.1.toNat = s.validators.size ∧
    (s.nodeParameters id).2.2.toNat = s.validators.values.countP AddressInfo.faulty

theorem toUInt16_ofNat
    (n : Nat) :
    (Int32.ofNat n).toUInt32.toUInt16 = UInt16.ofNat n := by
  show (UInt32.ofNat n).toUInt16 = UInt16.ofNat n
  simp

/-- A default entry is not faulty. -/
theorem faulty_getValidatorInfo
    (s : Settings)
    (id : UInt32) :
    (s.getValidatorInfo id).2.getNumberOfFaultyValidators = s.getNumberOfFaultyValidators := by
  by_cases h : s.IsConfigured id
  · rw [getValidatorInfo_of_configured h]
  · have hperm := OrderedMap.values_subscript_of_find_eq_none (not_not.mp h)
    have hcount := hperm.countP_eq AddressInfo.faulty
    rw [List.countP_cons_of_neg (by decide)] at hcount
    exact congrArg Int32.ofNat hcount

/--
A node has the configured n and f exactly when its own id is configured and the
number of validators fits into `n_`.
-/
theorem takesConfigured_iff
    (s : Settings)
    (id : UInt16) :
    s.TakesConfigured id ↔ s.IsConfigured id.toUInt32 ∧ s.validators.size < 2 ^ 16 := by
  have hfaulty := s.faulty_getValidatorInfo id.toUInt32
  constructor
  · rintro ⟨htotal, _⟩
    have hfits : s.validators.size < 2 ^ 16 := by
      rw [← htotal]
      exact UInt16.toNat_lt _
    refine ⟨?_, hfits⟩
    by_contra hnot
    have hsize := size_getValidatorInfo hnot
    simp only [nodeParameters, getTotalNumberOfValidators, hsize, toUInt16_ofNat,
      UInt16.toNat_ofNat'] at htotal
    omega
  · rintro ⟨hconfigured, hfits⟩
    have hcount : s.validators.values.countP AddressInfo.faulty ≤ s.validators.size := by
      rw [← OrderedMap.length_values]
      exact List.countP_le_length
    refine ⟨?_, ?_⟩
    · simp only [nodeParameters, getValidatorInfo_of_configured hconfigured,
        getTotalNumberOfValidators, toUInt16_ofNat, UInt16.toNat_ofNat']
      exact Nat.mod_eq_of_lt hfits
    · simp only [nodeParameters, getValidatorInfo_of_configured hconfigured,
        getNumberOfFaultyValidators, toUInt16_ofNat, UInt16.toNat_ofNat']
      exact Nat.mod_eq_of_lt (Nat.lt_of_le_of_lt hcount hfits)

/--
Getter calls leave the readings unchanged exactly when every id that is read by
subscript is configured, and a node takes the configured n and f exactly when
its own id is and there are at most 65535 validators.
-/
theorem settings_unchanged_iff
    (s : Settings)
    (cs : List SettingsCall)
    (id : UInt16) :
    (s.SameReadings (s.calls cs) ↔ ∀ c ∈ cs, s.Reads c) ∧
      (s.TakesConfigured id ↔ s.IsConfigured id.toUInt32 ∧ s.validators.size < 2 ^ 16) :=
  ⟨s.sameReadings_calls_iff cs, s.takesConfigured_iff id⟩

/-- Two validators, of which the leader has the id 0. -/
def twoValidators : Settings :=
  new [{ id := 0, address := [97], port := 80 }, { id := 1, address := [98], port := 80 }] 0 [] 0 0

/-- Asking the settings of two validators for a third one makes them three. -/
theorem getValidatorInfo_adds_validator :
    ¬ (∀ (s : Settings) (cs : List SettingsCall) (id : UInt16),
      s.SameReadings (s.calls cs) ∧ s.TakesConfigured id) := by
  intro h
  have htotal := (h twoValidators [.getValidatorInfo 7] 7).1.total
  exact absurd htotal (by decide)

end Settings

end CosiCoin
