import Kitakami.Base.Lines

/-!
# Configuration files

A configuration is read line by line into a table of parameters. The loop counts
down from the length of the table with every line that sets a parameter, and
ends when the count is zero or the text is at its end.
-/

namespace Kitakami
namespace LocCfg

/-- `LOC_MAX_PARAM_STRING` -/
def maxParamString : ℕ := 80

/-- `LOC_MAX_PARAM_LINE` -/
def maxParamLine : ℕ := 160

inductive ParamType
  | number
  | string
  | float
  deriving DecidableEq

/-- An entry of a table: the variable it sets, and whether there is a flag beside it. -/
structure Param (K : Type) where
  paramName : Str
  paramPtr : K
  hasParamSet : Bool
  paramType : ParamType

/-- A table; no two entries share a variable. -/
structure Table (K : Type) where
  entries : List (Param K)
  distinct : (entries.map Param.paramPtr).Nodup
  length_lt : entries.length < 4294967296

inductive Value (R : Type)
  | number (n : ℤ)
  | string (s : Str)
  | float (x : R)
  deriving DecidableEq

/-- The variables and the flags. -/
structure Vars (K R : Type) where
  value : K → Value R
  paramSet : K → Bool

/-- What the code computes with a `double`. -/
structure Doubles (R : Type) where
  atof : Str → R
  zero : R

/-- What one line says. -/
structure ParamValue (R : Type) where
  paramName : Str
  strValue : Str
  intValue : ℤ
  doubleValue : R

/-! ### The code -/

structure Trim where
  written : Str
  found : Bool
  lastNonspace : Option ℕ

def trimStep (t : Trim) (c : UInt8) : Trim :=
  let found := t.found || !isSpace c
  if found then
    let written := t.written ++ [c]
    ⟨written,found,if isSpace c then t.lastNonspace else some written.length⟩
  else t

/-- `loc_util_trim_space`; a text of spaces stays as it is. -/
def trimSpace (s : Str) : Str :=
  let t := s.foldl trimStep ⟨[],false,none⟩
  match t.lastNonspace with
  | some n => t.written.take n
  | none => s

def hexDigitValue (c : UInt8) : Option ℕ :=
  if 48 ≤ c ∧ c ≤ 57 then some (c.toNat - 48)
  else if 97 ≤ c ∧ c ≤ 102 then some (c.toNat - 87)
  else if 65 ≤ c ∧ c ≤ 70 then some (c.toNat - 55)
  else none

def isX (c : UInt8) : Bool := c = 120 || c = 88

/-- `strtol` with base 16 and a `long` of 64 bits, cut to an `int`. -/
def strtolHex (s : Str) : ℤ :=
  let s := s.dropWhile isSpace
  let negative : Bool := s.head? = some 45
  let s := if negative || s.head? = some 43 then s.tail else s
  let s :=
    if s[0]? = some 48 ∧ s[1]?.any isX ∧ (s[2]?.bind hexDigitValue).isSome then s.drop 2 else s
  let digits := (s.takeWhile fun c => (hexDigitValue c).isSome).filterMap hexDigitValue
  let n : ℕ := digits.foldl (fun n d => 16*n + d) 0
  let value : ℤ := if negative then -n else n
  (Int32.ofInt (max (-2^63) (min value (2^63-1)))).toInt

variable {K R : Type}

/-- The value of a line: a hexadecimal number, or a decimal one. -/
def parseValue (d : Doubles R) (name text : Str) : ParamValue R :=
  if 3 ≤ text.length ∧ text[0]? = some 48 ∧ text[1]?.any isX then
    ⟨name,text,strtolHex (text.drop 2),d.zero⟩
  else ⟨name,text,atoi text,d.atof text⟩

/-- The two sides of the first `=`; a line that lacks one of them says nothing. -/
def parseItem (d : Doubles R) (inputBuf : Str) : Option (ParamValue R) :=
  (strtokR (· = 61) inputBuf).bind fun name =>
    (strtokR (· = 61) name.2).map fun value =>
      parseValue d (trimSpace name.1) (trimSpace value.1)

/-- What an entry stores of a value. -/
def stored (e : Param K) (v : ParamValue R) : Value R :=
  match e.paramType with
  | .string => .string (if v.strValue = str "NULL" then [] else v.strValue.take maxParamString)
  | .number => .number v.intValue
  | .float => .float v.doubleValue

variable [DecidableEq K]

def Vars.setFlag (vars : Vars K R) (e : Param K) (flag : Bool) : Vars K R :=
  if e.hasParamSet then { vars with paramSet := Function.update vars.paramSet e.paramPtr flag }
  else vars

def Vars.assign (vars : Vars K R) (e : Param K) (v : ParamValue R) : Vars K R :=
  ({ vars with value := Function.update vars.value e.paramPtr (stored e v) }).setFlag e true

def setConfigEntry (e : Param K) (v : ParamValue R) (vars : Vars K R) : Option (Vars K R) :=
  if e.paramName = v.paramName then some (vars.assign e v) else none

/-- One entry of the table; the number of entries that were set goes along. -/
def fillStep (v : ParamValue R) (r : Vars K R × ℕ) (e : Param K) : Vars K R × ℕ :=
  match setConfigEntry e v r.1 with
  | some vars => (vars,r.2+1)
  | none => r

/-- The variables after one line, and how many entries it has set. -/
def fillConfItem (d : Doubles R) (inputBuf : Str) (table : List (Param K)) (vars : Vars K R) :
    Vars K R × ℕ :=
  match parseItem d inputBuf with
  | none => (vars,0)
  | some v => table.foldl (fillStep v) (vars,0)

/-- The string in a buffer, up to its terminator. -/
def cString (s : Str) : Str := s.takeWhile (· ≠ 0)

/-- What a loop leaves: the variables, how many lines it has read, and the rest of the text. -/
structure Filled (K R : Type) where
  vars : Vars K R
  read : ℕ
  rest : Str

/-- The loop over the lines; `numParams` is unsigned. -/
def fillLoop (d : Doubles R) (r : Reader) (table : List (Param K)) (numParams read : ℕ) (s : Str)
    (vars : Vars K R) : Filled K R :=
  if numParams = 0 then ⟨vars,read,s⟩
  else
    match _h : r.next s with
    | none => ⟨vars,read,s⟩
    | some (line,rest) =>
      let filled := fillConfItem d (cString line) table vars
      fillLoop d r table (sub32 numParams filled.2) (read+1) rest filled.1
termination_by s.length
decreasing_by exact r.shorter _ _ _ _h

/-- `loc_read_conf_r`: the result, the variables, and where the file is read next. -/
def readConfR (d : Doubles R) (confFp : Option Str) (table : Table K) (vars : Vars K R) :
    ℤ × Vars K R × Option Str :=
  match confFp with
  | none => (-1,vars,none)
  | some file =>
    let cleared := table.entries.foldl (fun vars e => vars.setFlag e false) vars
    let filled := fillLoop d (fgetsReader maxParamLine (by decide)) table.entries
      table.entries.length 0 file cleared
    (0,filled.vars,some filled.rest)

/-! ### What lines say -/

/-- What a line says of a parameter. -/
def valueOf (d : Doubles R) (name line : Str) : Option (ParamValue R) :=
  (parseItem d (cString line)).filter fun v => v.paramName = name

/-- The last that is said of a parameter. -/
def lastValue (d : Doubles R) (name : Str) (lines : List Str) : Option (ParamValue R) :=
  (lines.filterMap (valueOf d name)).getLast?

/-- The line names a parameter of the table. -/
def counts (d : Doubles R) (table : List (Param K)) (line : Str) : Bool :=
  (parseItem d (cString line)).any fun v => table.any fun e => e.paramName = v.paramName

/-- The variable of an entry holds what the last line says of it, or what it held before. -/
def valueFrom (d : Doubles R) (e : Param K) (lines : List Str) (old : Value R) : Value R :=
  ((lastValue d e.paramName lines).map (stored e)).getD old

/-- Every entry of a table is set by the last of some lines that names it and its flag tells so, and
is unchanged if none does. -/
def SetFrom (d : Doubles R) (table : Table K) (lines : List Str) (vars vars' : Vars K R) : Prop :=
  ∀ e ∈ table.entries, vars'.value e.paramPtr = valueFrom d e lines (vars.value e.paramPtr) ∧
    (e.hasParamSet = true →
      vars'.paramSet e.paramPtr = (lastValue d e.paramName lines).isSome)

/-! ### Names and values -/

variable {d : Doubles R}

theorem foldl_trimStep_spaces {a : Str} (ha : ∀ c ∈ a, isSpace c = true) :
    a.foldl trimStep ⟨[],false,none⟩ = ⟨[],false,none⟩ := by
  induction a with
  | nil => rfl
  | cons c a ih =>
    have hc := ha c List.mem_cons_self
    have hstep : trimStep ⟨[],false,none⟩ c = ⟨[],false,none⟩ := by simp [trimStep,hc]
    rw [List.foldl_cons,hstep,ih fun x hx => ha x (List.mem_cons_of_mem _ hx)]

/-- From the first character on everything is written, and the last one is remembered. -/
theorem foldl_trimStep_found (u w : Str) (n : Option ℕ) :
    ∃ m, u.foldl trimStep ⟨w,true,n⟩ = ⟨w ++ u,true,m⟩ ∧
      ((∀ c ∈ u, isSpace c = true) → m = n) ∧
      ∀ h : u ≠ [], isSpace (u.getLast h) = false → m = some (w ++ u).length := by
  induction u generalizing w n with
  | nil => exact ⟨n,by simp,fun _ => rfl,fun h => absurd rfl h⟩
  | cons c u ih =>
    obtain ⟨m,hm,hspaces,hlast⟩ := ih (w ++ [c]) (if isSpace c then n else some (w ++ [c]).length)
    rw [List.append_assoc,List.singleton_append] at hm hlast
    refine ⟨m,hm,fun h => ?_,fun _ h => ?_⟩
    · rw [hspaces fun x hx => h x (List.mem_cons_of_mem _ hx),if_pos (h c List.mem_cons_self)]
    · by_cases hu : u = []
      · subst hu
        have hc : isSpace c = false := h
        rw [hspaces (by simp),hc,if_neg Bool.false_ne_true]
      · rw [List.getLast_cons hu] at h
        exact hlast hu h

/-- The spaces around a text are taken away. -/
theorem trimSpace_eq {a b t : Str} (ha : ∀ c ∈ a, isSpace c = true) (hb : ∀ c ∈ b, isSpace c = true)
    (ht : t ≠ []) (hfirst : isSpace (t.head ht) = false) (hlast : isSpace (t.getLast ht) = false) :
    trimSpace (a ++ t ++ b) = t := by
  have hfound : t.foldl trimStep ⟨[],false,none⟩ = t.foldl trimStep ⟨[],true,none⟩ := by
    obtain ⟨c,u,rfl⟩ := List.exists_cons_of_ne_nil ht
    have hc : isSpace c = false := hfirst
    simp [trimStep,hc]
  obtain ⟨n,hn,-,hsome⟩ := foldl_trimStep_found t [] none
  obtain ⟨m,hm,hspaces,-⟩ := foldl_trimStep_found b ([] ++ t) n
  rw [hspaces hb,hsome ht hlast] at hm
  rw [hsome ht hlast] at hn
  rw [trimSpace,List.foldl_append,List.foldl_append,foldl_trimStep_spaces ha,hfound,hn,hm]
  simp

/-- A line with one `=` between two texts. -/
theorem parseItem_line {n v : Str} (hn : n ≠ []) (hne : 61 ∉ n) (hv : v ≠ []) (hve : 61 ∉ v) :
    parseItem d (n ++ 61 :: v) = some (parseValue d (trimSpace n) (trimSpace v)) := by
  have hno {t : Str} (ht : 61 ∉ t) : ∀ c ∈ t, decide (c = 61) = false := by
    intro c hc
    rw [decide_eq_false_iff_not]
    rintro rfl
    exact ht hc
  have hname : strtokR (· = 61) (n ++ 61 :: v) = some (n,v) :=
    strtokR_append hn (hno hne) (by simp)
  have hvalue : strtokR (· = 61) (v ++ []) = some (v,[]) :=
    strtokR_append hv (hno hve) (by simp)
  rw [List.append_nil] at hvalue
  rw [parseItem,hname,Option.bind_some,hvalue,Option.map_some]

/-! ### One line -/

variable {es : List (Param K)} {e : Param K} {v : ParamValue R} {vars : Vars K R}
  {table : Table K} {k : K} {line : Str} {flag : Bool}

@[simp] theorem value_setFlag : (vars.setFlag e flag).value = vars.value := by
  unfold Vars.setFlag
  split <;> rfl

theorem paramSet_setFlag_self (h : e.hasParamSet = true) :
    (vars.setFlag e flag).paramSet e.paramPtr = flag := by
  simp [Vars.setFlag,h]

theorem paramSet_setFlag_of_ne (h : k ≠ e.paramPtr) :
    (vars.setFlag e flag).paramSet k = vars.paramSet k := by
  unfold Vars.setFlag
  split
  · exact Function.update_of_ne h _ _
  · rfl

theorem value_assign_self : (vars.assign e v).value e.paramPtr = stored e v := by
  simp [Vars.assign]

theorem value_assign_of_ne (h : k ≠ e.paramPtr) : (vars.assign e v).value k = vars.value k := by
  simp [Vars.assign,h]

theorem paramSet_assign_of_ne (h : k ≠ e.paramPtr) :
    (vars.assign e v).paramSet k = vars.paramSet k := by
  rw [Vars.assign,paramSet_setFlag_of_ne h]

theorem fillStep_of_eq (h : e.paramName = v.paramName) (n : ℕ) :
    fillStep v (vars,n) e = (vars.assign e v,n+1) := by
  rw [fillStep,setConfigEntry,if_pos h]

theorem fillStep_of_ne (h : e.paramName ≠ v.paramName) (n : ℕ) :
    fillStep v (vars,n) e = (vars,n) := by
  rw [fillStep,setConfigEntry,if_neg h]

theorem foldl_fillStep_of_notMem (h : v.paramName ∉ es.map Param.paramName) (n : ℕ) :
    es.foldl (fillStep v) (vars,n) = (vars,n) := by
  induction es with
  | nil => rfl
  | cons e es ih =>
    rw [List.map_cons,List.mem_cons,not_or] at h
    rw [List.foldl_cons,fillStep_of_ne (Ne.symm h.1),ih h.2]

/-- With distinct names only the entry of the name is set. -/
theorem foldl_fillStep_of_mem (hn : (es.map Param.paramName).Nodup) (he : e ∈ es)
    (h : e.paramName = v.paramName) (n : ℕ) :
    es.foldl (fillStep v) (vars,n) = (vars.assign e v,n+1) := by
  induction es with
  | nil => simp at he
  | cons e' es ih =>
    rw [List.map_cons,List.nodup_cons] at hn
    rcases List.mem_cons.mp he with rfl | hmem
    · rw [List.foldl_cons,fillStep_of_eq h,foldl_fillStep_of_notMem (h ▸ hn.1)]
    · have hne : e'.paramName ≠ v.paramName := by
        intro heq
        apply hn.1
        rw [heq,← h]
        exact List.mem_map_of_mem hmem
      rw [List.foldl_cons,fillStep_of_ne hne]
      exact ih hn.2 hmem

/-- A line sets the entry it names. -/
theorem fillConfItem_of_eq (hn : (es.map Param.paramName).Nodup) (he : e ∈ es)
    (hv : valueOf d e.paramName line = some v) :
    fillConfItem d (cString line) es vars = (vars.assign e v,1) := by
  obtain ⟨hparse,hname⟩ := Option.filter_eq_some_iff.mp hv
  rw [fillConfItem,hparse]
  exact foldl_fillStep_of_mem hn he (of_decide_eq_true hname).symm 0

omit [DecidableEq K] in
/-- A line that counts names an entry. -/
theorem exists_of_counts (h : counts d es line = true) :
    ∃ e ∈ es, ∃ v, valueOf d e.paramName line = some v := by
  rw [counts] at h
  cases hparse : parseItem d (cString line) with
  | none => simp [hparse] at h
  | some v =>
    rw [hparse,Option.any_some,List.any_eq_true] at h
    obtain ⟨e,he,hname⟩ := h
    exact ⟨e,he,v,by simp [valueOf,hparse,of_decide_eq_true hname]⟩

theorem fillConfItem_of_not_counts (h : counts d es line = false) :
    fillConfItem d (cString line) es vars = (vars,0) := by
  rw [fillConfItem]
  cases hparse : parseItem d (cString line) with
  | none => rfl
  | some v =>
    apply foldl_fillStep_of_notMem
    rw [counts,hparse,Option.any_some,List.any_eq_false] at h
    intro hmem
    obtain ⟨e,he,hname⟩ := List.mem_map.mp hmem
    exact h e he (decide_eq_true hname)

theorem snd_fillConfItem (hn : (es.map Param.paramName).Nodup) :
    (fillConfItem d (cString line) es vars).2 = if counts d es line then 1 else 0 := by
  cases h : counts d es line with
  | false => rw [fillConfItem_of_not_counts h,if_neg Bool.false_ne_true]
  | true =>
    obtain ⟨e,he,v,hv⟩ := exists_of_counts h
    rw [fillConfItem_of_eq hn he hv,if_pos rfl]

omit [DecidableEq K] in
/-- Entries of a table that differ set different variables. -/
theorem ptr_ne {e' : Param K} (he : e ∈ table.entries) (he' : e' ∈ table.entries)
    (h : e.paramName ≠ e'.paramName) : e.paramPtr ≠ e'.paramPtr := by
  intro hptr
  apply h
  rw [List.inj_on_of_nodup_map table.distinct he he' hptr]

/-- A line that says nothing of an entry leaves it. -/
theorem fillConfItem_of_none (vars : Vars K R) (hn : (table.entries.map Param.paramName).Nodup)
    (he : e ∈ table.entries) (hv : valueOf d e.paramName line = none) :
    (fillConfItem d (cString line) table.entries vars).1.value e.paramPtr =
        vars.value e.paramPtr ∧
      (fillConfItem d (cString line) table.entries vars).1.paramSet e.paramPtr =
        vars.paramSet e.paramPtr := by
  cases hcounts : counts d table.entries line with
  | false =>
    rw [fillConfItem_of_not_counts hcounts]
    exact ⟨rfl,rfl⟩
  | true =>
    obtain ⟨e',he',v,hv'⟩ := exists_of_counts hcounts
    have hne : e.paramName ≠ e'.paramName := by
      intro heq
      rw [heq,hv'] at hv
      cases hv
    have hptr := ptr_ne he he' hne
    rw [fillConfItem_of_eq hn he' hv']
    exact ⟨value_assign_of_ne hptr,paramSet_assign_of_ne hptr⟩

/-! ### Many lines -/

theorem lastValue_cons (name : Str) (lines : List Str) :
    lastValue d name (line :: lines) = (lastValue d name lines).or (valueOf d name line) := by
  rw [lastValue,List.filterMap_cons]
  cases hv : valueOf d name line with
  | none => simp [lastValue]
  | some v =>
    simp only [lastValue,List.getLast?_cons]
    cases (lines.filterMap (valueOf d name)).getLast? <;> rfl

/-- The lines one after the other, whatever they count. -/
def fillAll (d : Doubles R) (table : List (Param K)) (lines : List Str) (vars : Vars K R) :
    Vars K R :=
  lines.foldl (fun vars line => (fillConfItem d (cString line) table vars).1) vars

/-- The last line that names an entry is the one that stays. -/
theorem fillAll_spec (hn : (table.entries.map Param.paramName).Nodup) (he : e ∈ table.entries)
    (lines : List Str) (vars : Vars K R) :
    (fillAll d table.entries lines vars).value e.paramPtr =
        valueFrom d e lines (vars.value e.paramPtr) ∧
      (e.hasParamSet = true → (fillAll d table.entries lines vars).paramSet e.paramPtr =
        ((lastValue d e.paramName lines).isSome || vars.paramSet e.paramPtr)) := by
  induction lines generalizing vars with
  | nil => exact ⟨rfl,fun _ => rfl⟩
  | cons line lines ih =>
    obtain ⟨hvalue,hset⟩ := ih (fillConfItem d (cString line) table.entries vars).1
    rw [fillAll,List.foldl_cons,← fillAll,valueFrom,lastValue_cons]
    rw [valueFrom] at hvalue
    cases hv : valueOf d e.paramName line with
    | none =>
      obtain ⟨hold,hflag⟩ := fillConfItem_of_none vars hn he hv
      rw [hold] at hvalue
      rw [hflag] at hset
      rw [Option.or_none]
      exact ⟨hvalue,hset⟩
    | some v =>
      rw [fillConfItem_of_eq hn he hv] at hvalue hset ⊢
      rw [value_assign_self] at hvalue
      refine ⟨hvalue.trans ?_,fun hflag => (hset hflag).trans ?_⟩
      · cases lastValue d e.paramName lines <;> rfl
      · rw [Vars.assign,paramSet_setFlag_self hflag]
        cases lastValue d e.paramName lines <;> simp

/-- The loop reads up to the line that brings the count to zero. -/
theorem fillLoop_eq (r : Reader) (hn : (es.map Param.paramName).Nodup) {numParams : ℕ}
    (hlt : numParams < 4294967296) (read : ℕ) (s : Str) :
    (fillLoop d r es numParams read s vars).vars =
      fillAll d es (upTo (counts d es) numParams (r.lines s)) vars := by
  generalize hk : s.length = k
  induction k using Nat.strong_induction_on generalizing s vars numParams read with
  | _ k ih =>
    rw [fillLoop]
    cases numParams with
    | zero =>
      rw [if_pos rfl,upTo]
      rfl
    | succ n =>
      rw [if_neg (Nat.succ_ne_zero n)]
      split
      · next h => rw [Reader.lines_of_none h]; rfl
      · next line rest h =>
        have hlen := r.shorter _ _ _ h
        have hsub : sub32 (n+1) (fillConfItem d (cString line) es vars).2 =
            if counts d es line then n else n+1 := by
          rw [snd_fillConfItem hn,sub32_of_le (by split <;> omega) hlt]
          split <;> omega
        have hlt' : (if counts d es line then n else n+1) < 4294967296 := by split <;> omega
        dsimp only
        rw [hsub,ih _ (hk ▸ hlen) hlt' _ _ rfl,Reader.lines_of_some h,upTo,fillAll,fillAll,
          List.foldl_cons]

/-! ### The file -/

theorem paramSet_clear_of_false (h : vars.paramSet k = false) :
    (es.foldl (fun vars e => vars.setFlag e false) vars).paramSet k = false := by
  induction es generalizing vars with
  | nil => exact h
  | cons e es ih =>
    rw [List.foldl_cons]
    apply ih
    unfold Vars.setFlag
    split
    · by_cases hk : k = e.paramPtr
      · rw [hk]
        exact Function.update_self _ _ _
      · exact (Function.update_of_ne hk _ _).trans h
    · exact h

theorem paramSet_clear (he : e ∈ es) (h : e.hasParamSet = true) :
    (es.foldl (fun vars e => vars.setFlag e false) vars).paramSet e.paramPtr = false := by
  induction es generalizing vars with
  | nil => simp at he
  | cons e' es ih =>
    rw [List.foldl_cons]
    rcases List.mem_cons.mp he with rfl | hmem
    · exact paramSet_clear_of_false (paramSet_setFlag_self h)
    · exact ih hmem

theorem value_clear :
    (es.foldl (fun vars e => vars.setFlag e false) vars).value = vars.value := by
  induction es generalizing vars with
  | nil => rfl
  | cons e es ih => rw [List.foldl_cons,ih,value_setFlag]

/-- The entries are set by the lines up to the one that brings the count to zero. -/
theorem readConfR_setFrom (d : Doubles R) (file : Str)
    (hlines : ∀ l ∈ linesOf file, l.length < maxParamLine) (table : Table K)
    (hnames : (table.entries.map Param.paramName).Nodup) (vars : Vars K R) :
    SetFrom d table (upTo (counts d table.entries) table.entries.length (linesOf file)) vars
      (readConfR d (some file) table vars).2.1 := by
  intro e he
  rw [readConfR]
  dsimp only
  rw [fillLoop_eq _ hnames table.length_lt,lines_fgetsReader (by decide) hlines]
  obtain ⟨hvalue,hset⟩ := fillAll_spec (d:=d) hnames he
    (upTo (counts d table.entries) table.entries.length (linesOf file))
    (table.entries.foldl (fun vars e => vars.setFlag e false) vars)
  rw [value_clear] at hvalue
  refine ⟨hvalue,fun hflag => (hset hflag).trans ?_⟩
  rw [paramSet_clear he hflag,Bool.or_false]

/-- A number and a text. -/
def numberAndText : Table Bool where
  entries := [⟨str "A",false,true,.number⟩,⟨str "S",true,true,.string⟩]
  distinct := by decide
  length_lt := by decide

def oldVars : Vars Bool Unit where
  value k := if k then .string (str "old") else .number 0
  paramSet _ := true

def repeatedFile : Str := str "A=1\nB=7\nA=2\nS=new\n"

/-- The second line that names `A` fills the table, and `S` stays what it was. -/
theorem readConfR_setFrom_two :
    SetFrom ⟨fun _ => (),()⟩ numberAndText
      (upTo (counts ⟨fun _ => (),()⟩ numberAndText.entries) 2 (linesOf repeatedFile)) oldVars
      (readConfR ⟨fun _ => (),()⟩ (some repeatedFile) numberAndText oldVars).2.1 ∧
    upTo (counts ⟨fun _ => (),()⟩ numberAndText.entries) 2 (linesOf repeatedFile) =
      [str "A=1\n",str "B=7\n",str "A=2\n"] ∧
    ∀ k, (readConfR ⟨fun _ => (),()⟩ (some repeatedFile) numberAndText oldVars).2.1.value k =
        (if k then .string (str "old") else .number 2) ∧
      (readConfR ⟨fun _ => (),()⟩ (some repeatedFile) numberAndText oldVars).2.1.paramSet k = !k :=
  ⟨readConfR_setFrom ⟨fun _ => (),()⟩ repeatedFile (by decide) numberAndText (by decide) oldVars,
    by decide +kernel,by decide +kernel⟩

/-- A table of the one number `A`. -/
def oneNumber : Table Unit where
  entries := [⟨str "A",(),true,.number⟩]
  distinct := by simp
  length_lt := by decide

/-- The table is full after the first line, and the second is not read. -/
theorem not_setFrom_repeated :
    ¬ ∀ file, (∀ l ∈ linesOf file, l.length < maxParamLine) →
      SetFrom (R:=Unit) ⟨fun _ => (),()⟩ oneNumber (linesOf file)
        ⟨fun _ => .number 0,fun _ => false⟩
        (readConfR ⟨fun _ => (),()⟩ (some file) oneNumber
          ⟨fun _ => .number 0,fun _ => false⟩).2.1 := by
  intro h
  have hfile := (h (str "A=1\nA=2\n") (by decide) ⟨str "A",(),true,.number⟩ (by simp [oneNumber])).1
  revert hfile
  decide +kernel

end LocCfg
end Kitakami
