import Kitakami.Gps.LocCfg

/-!
# Configuration updates at run time

A configuration text is read into the table of the GPS configuration, with a
count that starts one below the length of the table. Then five of the variables
keep what was read, and all others get back what they held.
-/

namespace Kitakami
namespace LocCfg

variable {K R : Type} [DecidableEq K]

/-- `loc_update_conf`: the number of lines read, and the variables. -/
def updateConf (d : Doubles R) (alloc : Bool) (confData : Option Str) (table : Table K)
    (vars : Vars K R) : ℤ × Vars K R :=
  match confData with
  | none => (-1,vars)
  | some data =>
    if data.length ≠ 0 ∧ table.entries.length ≠ 0 then
      if alloc then
        -- the copy ends at its first terminator; the count starts one record off
        let filled := fillLoop d (tokenReader (· = 10)) table.entries
          (sub32 table.entries.length 1) 0 (cString data) vars
        (filled.read,filled.vars)
      else (-1,vars)
    else (-1,vars)

/-- The fields of `loc_gps_cfg_s_type`. -/
inductive GpsField
  | gpsLock
  | suplVer
  | lppProfile
  | aGlonassPosProtocolSelect
  | agpsCertWritableMask
  | suplMode
  | intermediatePos
  | accuracyThres
  | nmeaProvider
  | capabilities
  | xtraVersionCheck
  | longtermPsdsServer1
  | longtermPsdsServer2
  | longtermPsdsServer3
  | useEmergencyPdnForEmergencySupl
  deriving DecidableEq

def gpsParam : GpsField → Param GpsField
  | .gpsLock => ⟨str "GPS_LOCK",.gpsLock,false,.number⟩
  | .suplVer => ⟨str "SUPL_VER",.suplVer,false,.number⟩
  | .lppProfile => ⟨str "LPP_PROFILE",.lppProfile,false,.number⟩
  | .aGlonassPosProtocolSelect =>
    ⟨str "A_GLONASS_POS_PROTOCOL_SELECT",.aGlonassPosProtocolSelect,false,.number⟩
  | .agpsCertWritableMask => ⟨str "AGPS_CERT_WRITABLE_MASK",.agpsCertWritableMask,false,.number⟩
  | .suplMode => ⟨str "SUPL_MODE",.suplMode,false,.number⟩
  | .intermediatePos => ⟨str "INTERMEDIATE_POS",.intermediatePos,false,.number⟩
  | .accuracyThres => ⟨str "ACCURACY_THRES",.accuracyThres,false,.number⟩
  | .nmeaProvider => ⟨str "NMEA_PROVIDER",.nmeaProvider,false,.number⟩
  | .capabilities => ⟨str "CAPABILITIES",.capabilities,false,.number⟩
  | .xtraVersionCheck => ⟨str "XTRA_VERSION_CHECK",.xtraVersionCheck,false,.number⟩
  | .longtermPsdsServer1 => ⟨str "LONGTERM_PSDS_SERVER_1",.longtermPsdsServer1,false,.string⟩
  | .longtermPsdsServer2 => ⟨str "LONGTERM_PSDS_SERVER_2",.longtermPsdsServer2,false,.string⟩
  | .longtermPsdsServer3 => ⟨str "LONGTERM_PSDS_SERVER_3",.longtermPsdsServer3,false,.string⟩
  | .useEmergencyPdnForEmergencySupl =>
    ⟨str "USE_EMERGENCY_PDN_FOR_EMERGENCY_SUPL",.useEmergencyPdnForEmergencySupl,false,.number⟩

/-- `gps_conf_table` -/
def gpsConfTable : Table GpsField where
  entries := [.gpsLock,.suplVer,.lppProfile,.aGlonassPosProtocolSelect,.agpsCertWritableMask,
    .suplMode,.intermediatePos,.accuracyThres,.nmeaProvider,.capabilities,.xtraVersionCheck,
    .longtermPsdsServer1,.longtermPsdsServer2,.longtermPsdsServer3,
    .useEmergencyPdnForEmergencySupl].map gpsParam
  distinct := by decide
  length_lt := by decide

abbrev GpsConf (R : Type) : Type := GpsField → Value R

/-- What is sent to the adapter. -/
inductive AdapterMsg (R : Type)
  | suplVer (value : Value R)
  | lppConfig (value : Value R)
  | aGlonassProtocol (value : Value R)
  | suplMode

/-- The fields an update at run time keeps. -/
def runTimeFields : List GpsField :=
  [.suplVer,.lppProfile,.aGlonassPosProtocolSelect,.suplMode,.gpsLock]

/-- The messages for the fields that have changed. -/
def changeMsgs [DecidableEq R] (conf updated : GpsConf R) : List (AdapterMsg R) :=
  let sent (k : GpsField) (msg : AdapterMsg R) : List (AdapterMsg R) :=
    if conf k ≠ updated k then [msg] else []
  sent .suplVer (.suplVer (updated .suplVer)) ++
    sent .lppProfile (.lppConfig (updated .lppProfile)) ++
    sent .aGlonassPosProtocolSelect (.aGlonassProtocol (updated .aGlonassPosProtocolSelect)) ++
    sent .suplMode .suplMode

/-- `loc_eng_configuration_update`: the configuration after it, and the messages sent. -/
def configurationUpdate [DecidableEq R] (d : Doubles R) (alloc adapter : Bool)
    (configData : Option Str) (conf : GpsConf R) : GpsConf R × List (AdapterMsg R) :=
  match configData with
  | none => (conf,[])
  | some data =>
    if 0 < data.length then
      let updated :=
        (updateConf d alloc (some data) gpsConfTable ⟨conf,fun _ => false⟩).2.value
      (runTimeFields.foldl (fun tmp k => Function.update tmp k (updated k)) conf,
        if adapter then changeMsgs conf updated else [])
    else (conf,[])

/-! ### What is read -/

/-- The lines of a configuration text. -/
def textLines (data : Str) : List Str := tokensOf (· = 10) (cString data)

/-- The lines that are read: none without memory for the copy. -/
def linesRead (d : Doubles R) (alloc : Bool) (table : Table K) (data : Str) : List Str :=
  if alloc then upTo (counts d table.entries) (table.entries.length - 1) (textLines data) else []

def linesLeft (d : Doubles R) (alloc : Bool) (table : Table K) (data : Str) : List Str :=
  (textLines data).drop (linesRead d alloc table data).length

/-- The five fields have the values of the last lines naming them, and no other has changed. -/
structure Updated (d : Doubles R) (lines : List Str) (conf conf' : GpsConf R) : Prop where
  named : ∀ k ∈ runTimeFields, conf' k = valueFrom d (gpsParam k) lines (conf k)
  frame : ∀ k, k ∉ runTimeFields → conf' k = conf k

variable {d : Doubles R} {alloc : Bool} {data : Str} {table : Table K} {vars : Vars K R}
  {e : Param K}

theorem value_updateConf (d : Doubles R) (alloc : Bool) (data : Str) (vars : Vars K R)
    (hn : (table.entries.map Param.paramName).Nodup) (he : e ∈ table.entries) :
    (updateConf d alloc (some data) table vars).2.value e.paramPtr =
      valueFrom d e (linesRead d alloc table data) (vars.value e.paramPtr) := by
  have hpos : 0 < table.entries.length := List.length_pos_of_mem he
  have hsub : sub32 table.entries.length 1 = table.entries.length - 1 :=
    sub32_of_le hpos table.length_lt
  have hlt := table.length_lt
  cases data with
  | nil =>
    have hnone : linesRead d alloc table [] = [] := by
      unfold linesRead
      split
      · cases table.entries.length - 1 <;> rfl
      · rfl
    rw [hnone]
    rfl
  | cons c data =>
    rw [updateConf]
    dsimp only
    rw [if_pos ⟨by simp,hpos.ne'⟩]
    cases alloc with
    | false => rfl
    | true =>
      rw [if_pos rfl,linesRead,if_pos rfl,hsub,textLines,← lines_tokenReader]
      dsimp only
      rw [fillLoop_eq _ hn (by omega)]
      exact (fillAll_spec hn he _ _).1

omit [DecidableEq K] in
/-- The later of two texts decides, where it says anything. -/
theorem valueFrom_append (d : Doubles R) (e : Param K) (lines lines' : List Str) (old : Value R) :
    valueFrom d e (lines ++ lines') old = valueFrom d e lines' (valueFrom d e lines old) := by
  simp only [valueFrom,lastValue,List.filterMap_append,List.getLast?_append]
  cases (lines'.filterMap (valueOf d e.paramName)).getLast? <;> rfl

omit [DecidableEq K] in
/-- Lines leave a value alone if the last that names it gives the same. -/
theorem valueFrom_eq_self {lines : List Str} {old : Value R} : valueFrom d e lines old = old ↔
    ∀ v, lastValue d e.paramName lines = some v → stored e v = old := by
  rw [valueFrom]
  cases lastValue d e.paramName lines <;> simp

omit [DecidableEq K] in
theorem linesRead_append_linesLeft (d : Doubles R) (alloc : Bool) (table : Table K) (data : Str) :
    linesRead d alloc table data ++ linesLeft d alloc table data = textLines data := by
  unfold linesLeft linesRead
  split
  · exact upTo_append_drop _ _ _
  · rfl

theorem gpsParam_mem (k : GpsField) : gpsParam k ∈ gpsConfTable.entries := by
  apply List.mem_map_of_mem
  cases k <;> decide

theorem paramPtr_gpsParam (k : GpsField) : (gpsParam k).paramPtr = k := by cases k <;> rfl

theorem names_nodup : (gpsConfTable.entries.map Param.paramName).Nodup := by decide +kernel

/-- Copying some fields over. -/
theorem foldl_update (ks : List GpsField) (g g' : GpsConf R) :
    ks.foldl (fun tmp k => Function.update tmp k (g' k)) g =
      fun k => if k ∈ ks then g' k else g k := by
  induction ks generalizing g with
  | nil => rfl
  | cons k₀ ks ih =>
    rw [List.foldl_cons,ih]
    funext k
    by_cases hk : k ∈ ks
    · rw [if_pos hk,if_pos (List.mem_cons_of_mem _ hk)]
    · by_cases he : k = k₀
      · rw [if_neg hk,he,if_pos List.mem_cons_self,Function.update_self]
      · rw [if_neg hk,Function.update_of_ne he,if_neg (by simp [he,hk])]

variable [DecidableEq R] {conf : GpsConf R} {adapter : Bool}

/-- The five fields have what the lines say that are read. -/
theorem configurationUpdate_eq :
    (configurationUpdate d alloc adapter (some data) conf).1 = fun k =>
      if k ∈ runTimeFields then
        valueFrom d (gpsParam k) (linesRead d alloc gpsConfTable data) (conf k)
      else conf k := by
  have hvalue (k : GpsField) := value_updateConf d alloc data
    ⟨conf,fun _ => false⟩ names_nodup (gpsParam_mem k)
  simp only [paramPtr_gpsParam] at hvalue
  rw [configurationUpdate]
  by_cases hdata : 0 < data.length
  · simp only [if_pos hdata,foldl_update,hvalue]
  · have hnil : data = [] := List.length_eq_zero_iff.mp (by omega)
    subst hnil
    simp only [← hvalue]
    funext k
    simp [updateConf]

/-- An update is complete if and only if no line that is left unread would change a field. -/
theorem updated_iff (d : Doubles R) (alloc adapter : Bool) (data : Str) (conf : GpsConf R) :
    Updated d (textLines data) conf (configurationUpdate d alloc adapter (some data) conf).1 ↔
      ∀ k ∈ runTimeFields, ∀ v,
        lastValue d (gpsParam k).paramName (linesLeft d alloc gpsConfTable data) = some v →
          stored (gpsParam k) v =
            valueFrom d (gpsParam k) (linesRead d alloc gpsConfTable data) (conf k) := by
  rw [← linesRead_append_linesLeft d alloc gpsConfTable data,
    configurationUpdate_eq]
  constructor
  · intro h k hk v hv
    have hnamed := h.named k hk
    rw [if_pos hk,valueFrom_append] at hnamed
    exact valueFrom_eq_self.mp hnamed.symm v hv
  · intro h
    refine ⟨fun k hk => ?_,fun k hk => if_neg hk⟩
    rw [if_pos hk,valueFrom_append]
    exact (valueFrom_eq_self.mpr (h k hk)).symm

/-- Every parameter of the table once, `GPS_LOCK` last. -/
def allParameters : Str :=
  str "SUPL_VER=1\nLPP_PROFILE=1\nA_GLONASS_POS_PROTOCOL_SELECT=1\nAGPS_CERT_WRITABLE_MASK=1\n" ++
  str "SUPL_MODE=1\nINTERMEDIATE_POS=1\nACCURACY_THRES=1\nNMEA_PROVIDER=1\nCAPABILITIES=1\n" ++
  str "XTRA_VERSION_CHECK=1\nLONGTERM_PSDS_SERVER_1=a\nLONGTERM_PSDS_SERVER_2=b\n" ++
  str "LONGTERM_PSDS_SERVER_3=c\nUSE_EMERGENCY_PDN_FOR_EMERGENCY_SUPL=1\nGPS_LOCK=3\n"

/-- The count is used up before the last of fifteen lines. -/
theorem not_updated_fifteenth :
    ¬ ∀ data, Updated ⟨fun _ => (),()⟩ (textLines data) (fun _ => .number 0)
      (configurationUpdate ⟨fun _ => (),()⟩ true true (some data) fun _ => .number 0).1 := by
  intro h
  have hlock := (h allParameters).named .gpsLock (by decide)
  revert hlock
  decide +kernel

end LocCfg
end Kitakami
