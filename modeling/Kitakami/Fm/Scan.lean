import Kitakami.Base.Decimal
import Kitakami.Fm.Client
import Kitakami.Fm.Daemon

/-!
# Scanning for stations

`brcm_scan` asks fmd for one seek after the other until it leaves the band, has
as many stations as fit, or a seek fails. The station it is told of comes from
a register of the chip, and nothing between the chip and the table compares it
with the end of the band.
-/

namespace Kitakami
namespace Fm
namespace Scan

/-- The command of `brcm_seek`. -/
def seekCommand (freq : ℤ) (up : Bool) : Str :=
  let dir := if up then "up" else "down"
  str s!"seek {dir} {freq*100}"

/-- What `brcm_seek` makes of the line that answers its command, if there is one. -/
def seekResult (line : Option Str) : Option ℤ :=
  line.bind fun text =>
    let reply := (text ++ [newline]).take 255
    if reply.take 2 = ok then some (Int32.ofInt ((strtol (reply.drop 2)).tdiv 100)).toInt else none

/-- `brcm_seek`, on the commands that have been sent; `replies` are the lines that
answer the commands, in their order. -/
def brcmSeek (replies : ℕ → Option Str) (freq : ℤ) (up : Bool) : Call (List Str) ℤ := fun sent =>
  (sent ++ [seekCommand freq up],seekResult (replies sent.length))

/-- The variables of `brcm_scan`, and the commands it has sent. -/
structure Vars where
  sent : List Str
  tbl : List UInt16
  found : ℤ
  freq : ℤ
  deriving DecidableEq

/-- The loop of `brcm_scan`. -/
def scanLoop (replies : ℕ → Option Str) (num : ℤ) : ℕ → Vars → Option Vars
  | 0, _ => none
  | k+1, s =>
    if s.found < num ∧ s.freq < 1080 then
      match brcmSeek replies s.freq true s.sent with
      | (sent,none) => some { s with sent := sent }
      | (sent,some cur) =>
        if cur ≤ s.freq then some { s with sent := sent }
        else scanLoop replies num k ⟨sent,s.tbl ++ [UInt16.ofInt cur],s.found+1,cur⟩
    else some s

/-- `brcm_scan`; at its end `*num` is `found`. -/
def brcmScan (replies : ℕ → Option Str) (num : ℤ) (fuel : ℕ) : Option Vars :=
  scanLoop replies num fuel ⟨[],[],0,875⟩

/-- The daemon, in some state and over some transport, may answer the command with the line. -/
def MayReply (cmd text : Str) : Prop :=
  ∃ (transport : Handle → FmTransport) (chipName : Handle → Str) (env : TransportEnv) (w : Daemon),
    (w.handleCommand transport chipName env cmd).replies = w.replies ++ [text]

/-- The lines that answer these commands are ones the daemon may answer them with. -/
def FromDaemon (replies : ℕ → Option Str) (sent : List Str) : Prop :=
  ∀ k cmd text, sent[k]? = some cmd → replies k = some text → MayReply cmd text

/-- A list of stations as it is promised. -/
structure Clean (num : ℤ) (r : Vars) : Prop where
  atMost : (r.tbl.length : ℤ) ≤ max num 0
  found : r.found = r.tbl.length
  sorted : r.tbl.Pairwise (· < ·)
  inBand : ∀ f ∈ r.tbl, 875 < f ∧ f ≤ 1080

/-! ## The replies to a seek -/

theorem seekCommand_up {freq : ℤ} (h : 0 ≤ freq) : ∃ n, seekCommand freq true =
    str "seek" ++ 32::(str "up" ++ 32::decimal n) := by
  obtain ⟨n,hn⟩ := Int.eq_ofNat_of_zero_le (a:=freq*100) (by omega)
  refine ⟨n,?_⟩
  have hs : seekCommand freq true = str ("seek up " ++ toString n) := by
    simp only [seekCommand,hn]
    rfl
  rw [hs,str_append,str_toString]
  rfl

theorem tokens_seek (n : ℕ) :
    Daemon.tokens (str "seek" ++ 32::(str "up" ++ 32::decimal n)) =
      [str "seek",str "up",decimal n] := by
  have hblank : ∀ d ∈ decimal n, isBlank d = false := by
    intro d hd
    have h := mem_decimal hd
    simp only [isBlank,Bool.or_eq_false_iff,decide_eq_false_iff_not]
    constructor <;> rintro rfl <;> exact absurd h.1 (by decide)
  have hseek : ∀ d ∈ str "seek", isBlank d = false := by decide +kernel
  have hup : ∀ d ∈ str "up", isBlank d = false := by decide +kernel
  unfold Daemon.tokens
  rw [List.splitOnP_append_cons_of_forall_mem hseek _ rfl,
    List.splitOnP_append_cons_of_forall_mem hup _ rfl,List.splitOnP_eq_singleton hblank]
  simp [decimal_ne_nil]
  decide

theorem fmSeek_found {t : FmTransport} {startKhz : UInt32} {up : Bool} {d : Dev} {flags : UInt16}
    {found : UInt32} (h : (fmSeek t startKhz up d).2 = some (flags,found)) :
    ∃ reg, found = fmRegToKhz reg := by
  rw [fmSeek_eq] at h
  obtain ⟨d₁,_,-,h₁⟩ := Call.bind_eq_some.mp h
  obtain ⟨d₂,khz,h₂,h₃⟩ := Call.bind_eq_some.mp h₁
  obtain ⟨-,rfl⟩ := Prod.mk.inj (Option.some.inj h₃)
  obtain ⟨resp,-,-,-,hkhz⟩ := (fmGetFrequency_eq_some t d₁ khz).mp (congrArg Prod.snd h₂)
  exact ⟨_,hkhz⟩

theorem call_replies {α : Type} (transport : Handle → FmTransport) (f : FmTransport → Call Dev α)
    (w : Daemon) : (Daemon.call transport f w).1.replies = w.replies := by
  unfold Daemon.call
  split <;> rfl

/-- The daemon's answer to a seek: an error, or a frequency that a register can hold. -/
theorem mayReply_seek {freq : ℤ} (hf : 0 ≤ freq) {text : Str}
    (h : MayReply (seekCommand freq true) text) :
    text = str "err not-open" ∨ text = str "err seek-failed" ∨
      ∃ reg, text = str s!"ok {fmRegToKhz reg}" := by
  obtain ⟨transport,chipName,env,w,hw⟩ := h
  obtain ⟨n,hn⟩ := seekCommand_up hf
  have hopen : str "seek" ≠ str "open" := by decide
  have hclose : str "seek" ≠ str "close" := by decide
  have htune : str "seek" ≠ str "tune" := by decide
  simp only [hn,Daemon.handleCommand,tokens_seek,if_neg hopen,if_neg hclose] at hw
  split at hw
  · simp only [Daemon.tunerCommand,if_neg htune,if_true,Daemon.seek] at hw
    split at hw
    · case _ w' he =>
      have hr : w'.replies = w.replies :=
        (congrArg (fun p => p.1.replies) he).symm.trans (call_replies _ _ _)
      simp only [Daemon.reply,hr,List.append_cancel_left_eq] at hw
      exact Or.inr (Or.inl (List.singleton_inj.mp hw).symm)
    · case _ w' flags found he =>
      have hr : w'.replies = w.replies :=
        (congrArg (fun p => p.1.replies) he).symm.trans (call_replies _ _ _)
      simp only [Daemon.reply,hr,List.append_cancel_left_eq] at hw
      have hfound : ∃ reg, found = fmRegToKhz reg := by
        unfold Daemon.call at he
        split at he
        · exact fmSeek_found (congrArg Prod.snd he)
        · cases he
      obtain ⟨reg,rfl⟩ := hfound
      exact Or.inr (Or.inr ⟨reg,(List.singleton_inj.mp hw).symm⟩)
  · simp only [Daemon.reply,List.append_cancel_left_eq] at hw
    exact Or.inl (List.singleton_inj.mp hw).symm

theorem str_okReply (khz : UInt32) : str s!"ok {khz}" = ok ++ 32::decimal khz.toNat := by
  have hs : s!"ok {khz}" = "ok " ++ toString khz.toNat := rfl
  rw [hs,str_append,str_toString]
  rfl

/-- The frequency of a reply, in units of 100 kHz. -/
theorem seekResult_ok {n : ℕ} (hn : n ≤ 129535) :
    seekResult (some (ok ++ 32::decimal n)) = some ((n/100 : ℕ) : ℤ) := by
  have hok : ok.length = 2 := by decide
  have hlen : (decimal n).length ≤ 6 := length_decimal_le (by decide) (by omega)
  have hbuf : (ok ++ 32::decimal n ++ [newline]).take 255 = ok ++ 32::(decimal n ++ [newline]) := by
    rw [List.take_of_length_le]
    · simp
    · simp only [List.length_append,List.length_cons,List.length_nil,hok]
      omega
  have hvalue : strtol (32::(decimal n ++ [newline])) = n :=
    strtol_decimal (c:=newline) (by decide) [] (by omega)
  have hdiv : (n : ℤ).tdiv 100 = (n/100 : ℕ) := rfl
  rw [seekResult,Option.bind_some]
  dsimp only
  rw [hbuf,List.take_left' hok,if_pos rfl,List.drop_left' hok,hvalue,hdiv,
    Int32.toInt_ofInt_of_le (by omega) (by omega)]

/-- What a seek can find, in units of 100 kHz: what the register can hold. -/
theorem seekResult_mem {freq : ℤ} (hf : 0 ≤ freq) {text : Str}
    (h : MayReply (seekCommand freq true) text) {cur : ℤ} (hc : seekResult (some text) = some cur) :
    640 ≤ cur ∧ cur ≤ 1295 := by
  obtain rfl | rfl | ⟨reg,rfl⟩ := mayReply_seek hf h
  · have hnone : seekResult (some (str "err not-open")) = none := by decide
    rw [hnone] at hc
    cases hc
  · have hnone : seekResult (some (str "err seek-failed")) = none := by decide
    rw [hnone] at hc
    cases hc
  · have hreg : 64000 ≤ (fmRegToKhz reg).toNat ∧ (fmRegToKhz reg).toNat ≤ 129535 := by
      have h := reg.toNat_lt
      simp only [fmRegToKhz,UInt32.toNat_add,UInt16.toNat_toUInt32,UInt32.reduceToNat]
      omega
    rw [str_okReply,seekResult_ok hreg.2,Option.some.injEq] at hc
    omega

/-! ## The loop -/

variable {replies : ℕ → Option Str} {num : ℤ} {fs gs : List ℤ} {s r : Vars} {k : ℕ}

/-- The first seeks have found these stations, one above the other. -/
structure Heard (replies : ℕ → Option Str) (fs : List ℤ) : Prop where
  heard : ∀ k < fs.length, seekResult (replies k) = fs[k]?
  sorted : (875::fs).Pairwise (· < ·)

/-- The scan issues seek `k`: those before it have found stations one above the
other, none of them at the end of the band or beyond it, and there is room for
another one. -/
def Issued (replies : ℕ → Option Str) (num : ℤ) (k : ℕ) : Prop :=
  k < num ∧ ∃ fs, fs.length = k ∧ Heard replies fs ∧ ∀ f ∈ fs, f < 1080

/-- No reply to a seek of the scan reports a station beyond the band. -/
def StaysInBand (replies : ℕ → Option Str) (num : ℤ) : Prop :=
  ∀ k cur, Issued replies num k → seekResult (replies k) = some cur → cur ≤ 1080

theorem Heard.take (h : Heard replies fs) (k : ℕ) : Heard replies (fs.take k) where
  heard j hj := by
    rw [List.length_take] at hj
    rw [h.heard j (by omega),List.getElem?_take_of_lt (by omega)]
  sorted := h.sorted.sublist ((List.take_sublist k fs).cons_cons 875)

/-- The stations are what the replies say. -/
theorem Heard.eq_take (hf : Heard replies fs) (hg : Heard replies gs)
    (hle : fs.length ≤ gs.length) : fs = gs.take fs.length := by
  apply List.ext_getElem?
  intro j
  rcases Nat.lt_or_ge j fs.length with hj | hj
  · rw [← hf.heard j hj,List.getElem?_take_of_lt hj,hg.heard j (by omega)]
  · rw [List.getElem?_eq_none hj,List.getElem?_eq_none]
    rw [List.length_take]
    omega

/-- What the loop knows of its variables: the stations so far, the last of them,
and the commands of the seeks that found them. -/
structure Inv (replies : ℕ → Option Str) (num : ℤ) (fs : List ℤ) (s : Vars) : Prop where
  heard : Heard replies fs
  tbl : s.tbl = fs.map UInt16.ofInt
  found : s.found = fs.length
  atMost : fs.length ≤ max num 0
  le : ∀ f ∈ 875::fs, f ≤ s.freq
  freq : s.freq ∈ 875::fs
  inside : ∀ f ∈ fs, f < s.freq → f < 1080
  commands : ∀ cmd ∈ s.sent, ∃ freq, 0 ≤ freq ∧ cmd = seekCommand freq true

/-- The loop has ended: it was not to go on, or its last seek found nothing above
the station before. -/
structure Ended (replies : ℕ → Option Str) (num : ℤ) (fs : List ℤ) (r : Vars) : Prop
    extends Inv replies num fs r where
  sent : r.sent.length = fs.length + if r.found < num ∧ r.freq < 1080 then 1 else 0
  stopped : r.found < num → r.freq < 1080 →
    ∀ cur, seekResult (replies fs.length) = some cur → cur ≤ r.freq

theorem inv_initial (replies : ℕ → Option Str) (num : ℤ) : Inv replies num [] ⟨[],[],0,875⟩ where
  heard := ⟨fun k hk => absurd hk (Nat.not_lt_zero k),List.pairwise_singleton _ _⟩
  tbl := rfl
  found := rfl
  atMost := le_max_right _ _
  le := by simp
  freq := List.mem_singleton_self _
  inside f hf := absurd hf List.not_mem_nil
  commands cmd hc := absurd hc List.not_mem_nil

theorem Inv.commands_snoc (h : Inv replies num fs s) :
    ∀ cmd ∈ s.sent ++ [seekCommand s.freq true], ∃ freq, 0 ≤ freq ∧ cmd = seekCommand freq true := by
  intro cmd hc
  rcases List.mem_append.mp hc with hc | hc
  · exact h.commands cmd hc
  · have h875 := h.le 875 List.mem_cons_self
    exact ⟨s.freq,by omega,List.mem_singleton.mp hc⟩

/-- A seek that finds a station above the last one. -/
theorem Inv.next (h : Inv replies num fs s) (hnum : s.found < num) (hfreq : s.freq < 1080) {cur : ℤ}
    (hc : seekResult (replies fs.length) = some cur) (hlt : s.freq < cur) :
    Inv replies num (fs ++ [cur])
      ⟨s.sent ++ [seekCommand s.freq true],s.tbl ++ [UInt16.ofInt cur],s.found+1,cur⟩ where
  heard := by
    refine ⟨fun k hk => ?_,?_⟩
    · rw [List.length_append,List.length_singleton] at hk
      rcases Nat.lt_or_ge k fs.length with hk' | hk'
      · rw [h.heard.heard k hk',List.getElem?_append_left hk']
      · obtain rfl : k = fs.length := by omega
        rw [hc,List.getElem?_concat_length]
    · rw [← List.cons_append,List.pairwise_append]
      refine ⟨h.heard.sorted,List.pairwise_singleton _ _,fun f hf g hg => ?_⟩
      rw [List.mem_singleton.mp hg]
      exact lt_of_le_of_lt (h.le f hf) hlt
  tbl := by rw [h.tbl,List.map_append,List.map_singleton]
  found := by simp [h.found]
  atMost := by
    have := h.found
    rw [List.length_append,List.length_singleton]
    omega
  le f hf := by
    rw [← List.cons_append,List.mem_append,List.mem_singleton] at hf
    rcases hf with hf | rfl
    · exact le_of_lt (lt_of_le_of_lt (h.le f hf) hlt)
    · exact le_rfl
  freq := List.mem_cons_of_mem _ (List.mem_append_right _ (List.mem_singleton_self _))
  inside f hf hlt' := by
    rcases List.mem_append.mp hf with hf | hf
    · exact lt_of_le_of_lt (h.le f (List.mem_cons_of_mem _ hf)) hfreq
    · exact absurd hlt' (by rw [List.mem_singleton.mp hf]; exact lt_irrefl _)
  commands := h.commands_snoc

/-- Each round leaves less of the band, so the loop ends. -/
theorem scanLoop_ends (k : ℕ) (hk : 1080 - s.freq < k) (hk₀ : 0 < k) (h : Inv replies num fs s)
    (hs : s.sent.length = fs.length) :
    ∃ r fs', scanLoop replies num k s = some r ∧ Ended replies num fs' r := by
  induction k generalizing s fs with
  | zero => exact absurd hk₀ (lt_irrefl _)
  | succ k ih =>
    unfold scanLoop
    split
    · case _ hgo =>
      simp only [brcmSeek,hs]
      cases hc : seekResult (replies fs.length) with
      | none =>
        exact ⟨_,fs,rfl,⟨h.heard,h.tbl,h.found,h.atMost,h.le,h.freq,h.inside,h.commands_snoc⟩,
          by simp [hs,hgo],fun _ _ cur hcur => by rw [hc] at hcur; cases hcur⟩
      | some cur =>
        dsimp only
        split
        · case _ hle =>
          refine ⟨_,fs,rfl,⟨h.heard,h.tbl,h.found,h.atMost,h.le,h.freq,h.inside,h.commands_snoc⟩,
            by simp [hs,hgo],fun _ _ cur' hcur => ?_⟩
          rw [hc] at hcur
          rw [← Option.some.inj hcur]
          exact hle
        · case _ hlt =>
          have hnext := h.next hgo.1 hgo.2 hc (lt_of_not_ge hlt)
          refine ih ?_ ?_ hnext (by simp [hs])
          · show 1080 - cur < k
            omega
          · omega
    · case _ hstop =>
      exact ⟨s,fs,rfl,h,by rw [if_neg hstop,hs,Nat.add_zero],
        fun hnum hfreq => absurd ⟨hnum,hfreq⟩ hstop⟩

/-- More fuel makes no difference. -/
theorem scanLoop_mono (k : ℕ) {j : ℕ} (h : scanLoop replies num k s = some r) (hj : k ≤ j) :
    scanLoop replies num j s = some r := by
  induction k generalizing s j with
  | zero => cases h
  | succ k ih =>
    obtain ⟨j,rfl⟩ := Nat.exists_eq_succ_of_ne_zero (Nat.ne_of_gt (Nat.zero_lt_of_lt hj))
    unfold scanLoop at h ⊢
    split
    · case _ hgo =>
      rw [if_pos hgo] at h
      split
      · case _ he =>
        rw [he] at h
        exact h
      · case _ sent cur he =>
        rw [he] at h
        dsimp only at h
        split
        · case _ hle => rwa [if_pos hle] at h
        · case _ hle =>
          rw [if_neg hle] at h
          exact ih h (Nat.le_of_succ_le_succ hj)
    · case _ hstop => rwa [if_neg hstop] at h

/-- What the scan issues is decided by the replies to the seeks before. -/
theorem Ended.issued_iff (h : Ended replies num fs r) (k : ℕ) :
    Issued replies num k ↔ k < r.sent.length := by
  have hsent := h.sent
  have hfound := h.found
  constructor
  · rintro ⟨hnum,gs,rfl,hg,hbelow⟩
    by_contra hk
    have hle : fs.length ≤ gs.length := by omega
    have htake := h.heard.eq_take hg hle
    have hfreq : r.freq < 1080 := by
      rcases List.mem_cons.mp h.freq with heq | hmem
      · omega
      · rw [htake] at hmem
        exact hbelow _ (List.mem_of_mem_take hmem)
    have hgo : r.found < num ∧ r.freq < 1080 := ⟨by omega,hfreq⟩
    rw [if_pos hgo] at hsent
    have hlt : fs.length < gs.length := by omega
    have hcur : seekResult (replies fs.length) = some gs[fs.length] := by
      rw [hg.heard _ hlt,List.getElem?_eq_getElem hlt]
    have hstop := h.stopped hgo.1 hgo.2 _ hcur
    have hsorted := hg.sorted
    rw [← List.take_append_drop fs.length gs,← htake,List.drop_eq_getElem_cons hlt,
      ← List.cons_append,List.pairwise_append] at hsorted
    have := hsorted.2.2 _ h.freq _ List.mem_cons_self
    omega
  · intro hk
    have hmost := h.atMost
    rcases Nat.lt_or_ge k fs.length with hlt | hge
    · refine ⟨by omega,fs.take k,List.length_take_of_le hlt.le,h.heard.take k,fun f hf => ?_⟩
      refine h.inside f (List.mem_of_mem_take hf) (lt_of_lt_of_le ?_
        (h.le fs[k] (List.mem_cons_of_mem _ (List.getElem_mem hlt))))
      have hsorted := h.heard.sorted.of_cons
      rw [← List.take_append_drop k fs,List.drop_eq_getElem_cons hlt,List.pairwise_append] at hsorted
      exact hsorted.2.2 _ hf _ List.mem_cons_self
    · split at hsent
      · case _ hgo =>
        refine ⟨by omega,fs,by omega,h.heard,fun f hf => ?_⟩
        exact lt_of_le_of_lt (h.le f (List.mem_cons_of_mem _ hf)) hgo.2
      · omega

/-- The stations of a scan that fmd answers are frequencies a register can hold. -/
theorem Ended.mem_range (h : Ended replies num fs r) (hd : FromDaemon replies r.sent) :
    ∀ f ∈ fs, 640 ≤ f ∧ f ≤ 1295 := by
  intro f hf
  obtain ⟨i,hi,rfl⟩ := List.getElem_of_mem hf
  have hcur : seekResult (replies i) = some fs[i] := by
    rw [h.heard.heard i hi,List.getElem?_eq_getElem hi]
  have hsent : i < r.sent.length := by
    rw [h.sent]
    omega
  obtain ⟨freq,hfreq,hcmd⟩ := h.commands _ (List.getElem_mem hsent)
  cases ht : replies i with
  | none =>
    rw [ht] at hcur
    cases hcur
  | some text =>
    rw [ht] at hcur
    refine seekResult_mem hfreq ?_ hcur
    rw [← hcmd]
    exact hd i _ text (List.getElem?_eq_getElem hsent) ht

theorem toNat_ofInt {f : ℤ} (h : 640 ≤ f ∧ f ≤ 1295) : ((UInt16.ofInt f).toNat : ℤ) = f := by
  rw [UInt16.ofInt,UInt16.toNat_ofNat']
  omega

theorem ofInt_mem_band {f : ℤ} (h : 640 ≤ f ∧ f ≤ 1295) :
    (875 < UInt16.ofInt f ∧ UInt16.ofInt f ≤ 1080) ↔ 875 < f ∧ f ≤ 1080 := by
  have := toNat_ofInt h
  simp only [UInt16.lt_iff_toNat_lt,UInt16.le_iff_toNat_le,UInt16.reduceToNat]
  omega

/-- The table is a list of distinct stations above the lower end of the band in any case. -/
theorem Ended.clean_iff (h : Ended replies num fs r) (hd : FromDaemon replies r.sent) :
    Clean num r ↔ ∀ f ∈ fs, f ≤ 1080 := by
  have hrange := h.mem_range hd
  have hlen : r.tbl.length = fs.length := by rw [h.tbl,List.length_map]
  have habove : ∀ f ∈ fs, 875 < f :=
    fun f hf => List.rel_of_pairwise_cons h.heard.sorted hf
  constructor
  · intro hc f hf
    have hmem : UInt16.ofInt f ∈ r.tbl := by
      rw [h.tbl]
      exact List.mem_map_of_mem hf
    exact ((ofInt_mem_band (hrange f hf)).mp (hc.inBand _ hmem)).2
  · intro hband
    refine ⟨by rw [hlen]; exact h.atMost,by rw [hlen]; exact h.found,?_,?_⟩
    · rw [h.tbl,List.pairwise_map]
      refine h.heard.sorted.of_cons.imp_of_mem fun {f g} hf hg hlt => ?_
      have h₁ := toNat_ofInt (hrange f hf)
      have h₂ := toNat_ofInt (hrange g hg)
      rw [UInt16.lt_iff_toNat_lt]
      omega
    · intro x hx
      rw [h.tbl] at hx
      obtain ⟨f,hf,rfl⟩ := List.mem_map.mp hx
      exact (ofInt_mem_band (hrange f hf)).mpr ⟨habove f hf,hband f hf⟩

/-- The scan ends, and its list is what is promised exactly if no reply to one of
its seeks reports a station beyond the band. -/
theorem brcmScan_clean_iff (replies : ℕ → Option Str) (num : ℤ) :
    ∃ r, (∀ fuel, 206 ≤ fuel → brcmScan replies num fuel = some r) ∧
      (FromDaemon replies r.sent → (Clean num r ↔ StaysInBand replies num)) := by
  obtain ⟨r,fs,hr,h⟩ := scanLoop_ends (s:=⟨[],[],0,875⟩) 206 (by decide) (by decide)
    (inv_initial replies num) rfl
  refine ⟨r,fun fuel hfuel => scanLoop_mono 206 hr hfuel,fun hd => ?_⟩
  rw [h.clean_iff hd]
  constructor
  · intro hband k cur hk hcur
    rw [h.issued_iff,h.sent] at hk
    rcases Nat.lt_or_ge k fs.length with hlt | hge
    · rw [h.heard.heard k hlt] at hcur
      exact hband cur (List.mem_of_getElem? hcur)
    · split at hk
      · case _ hgo =>
        obtain rfl : k = fs.length := by omega
        have := h.stopped hgo.1 hgo.2 cur hcur
        omega
      · omega
  · intro hstays f hf
    obtain ⟨k,hk,rfl⟩ := List.getElem_of_mem hf
    refine hstays k _ ((h.issued_iff k).mpr (by rw [h.sent]; omega)) ?_
    rw [h.heard.heard k hk,List.getElem?_eq_getElem hk]

/-- A chip that does what it is told, and whose seek ends at 108.5 MHz. -/
def highChip : FmTransport where
  vsc cmd _ d := (d,some (if cmd.headD 0 = fmRegFmFreq then [0,0,0,0xd4,0xad] else [0,0,0,1,0]))
  waitEvent _ d := (d,some [evtVendor,1,fmVseSubcode])

theorem mayReply_highChip : MayReply (seekCommand 875 true) (str "ok 108500") := by
  have htokens : Daemon.tokens (seekCommand 875 true) = [str "seek",str "up",str "87500"] := by
    decide +kernel
  refine ⟨fun _ => highChip,fun _ => [],⟨false,none,none,[]⟩,
    { dev := .opened [], powered := true, tp := some 7 },?_⟩
  rw [Daemon.handleCommand,htokens]
  decide +kernel

/-- The station beyond the band is the only one of the list. -/
theorem not_clean_highChip :
    ∃ r, brcmScan (fun _ => some (str "ok 108500")) 10 206 = some r ∧
      FromDaemon (fun _ => some (str "ok 108500")) r.sent ∧ ¬ Clean 10 r := by
  refine ⟨⟨[seekCommand 875 true],[1085],1,1085⟩,by decide +kernel,?_,?_⟩
  · intro k cmd text hcmd htext
    obtain rfl := Option.some.inj htext
    rw [List.mem_singleton.mp (List.mem_of_getElem? hcmd)]
    exact mayReply_highChip
  · intro h
    exact absurd (h.inBand 1085 (List.mem_singleton_self _)).2 (by decide)

end Scan
end Fm
end Kitakami
