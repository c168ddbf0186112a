import Kitakami.Base.Calls

/-!
# Firmware download

`download_firmware` sends the records of a `.hcd` file as HCI commands and then
resets the chip. A record that is cut off ends the loop as the end of the file
does, so a truncated image is taken for a complete one.
-/

namespace Kitakami
namespace Fm
namespace Firmware

def hciReset : UInt16 := 0x0c03
def hciVscDownloadMinidrv : UInt16 := 0xfc2e

/-- `hci_command` as it is called here, with an opcode and its parameters. -/
abbrev HciCommand (σ : Type) := UInt16 → List UInt8 → Call σ (List UInt8)

variable {σ : Type} (hciCommand : HciCommand σ)

/-- The loop of `download_firmware` over what is left of the file. It ends at a
short header or a short body. -/
def downloadLoop : ℕ → List UInt8 → ℕ → Call σ ℕ
  | 0, _, count => pure count
  | k+1, file, count =>
    let hdr := file.take 3
    if hdr.length ≠ 3 then pure count
    else
      let op := (hdr.getD 0 0).toUInt16 ||| ((hdr.getD 1 0).toUInt16 <<< 8)
      let len := (hdr.getD 2 0).toNat
      let body := (file.drop 3).take len
      if body.length ≠ len then pure count
      else do
        let _ ← hciCommand op body
        downloadLoop k ((file.drop 3).drop len) (count+1)

/-- `firmware` is the content of the file, if it can be opened. -/
def downloadFirmware (firmware : Option (List UInt8)) : Call σ Unit :=
  match firmware with
  | none => Call.fail
  | some file => do
    let _ ← hciCommand hciVscDownloadMinidrv []
    let count ← downloadLoop hciCommand (file.length+1) file 0
    if count = 0 then Call.fail
    else do
      let _ ← hciCommand hciReset []
      pure ()

/-- A complete record: opcode, length and parameters. -/
structure Record where
  lo : UInt8
  hi : UInt8
  params : List UInt8
  short : params.length ≤ 255
  deriving DecidableEq

namespace Record

def bytes (r : Record) : List UInt8 := r.lo::r.hi::UInt8.ofNat r.params.length::r.params

/-- The command a record stands for. -/
def command (r : Record) : UInt16 × List UInt8 :=
  (r.lo.toUInt16 ||| (r.hi.toUInt16 <<< 8),r.params)

theorem toNat_length (r : Record) : (UInt8.ofNat r.params.length).toNat = r.params.length := by
  have h := r.short
  rw [UInt8.toNat_ofNat']
  omega

end Record

/-- The record at the head of a file, and what follows it. -/
def readRecord : List UInt8 → Option (Record × List UInt8)
  | lo::hi::len::rest =>
    if len.toNat ≤ rest.length then
      some (⟨lo,hi,rest.take len.toNat,by
        have h := len.toNat_lt
        rw [List.length_take]
        omega⟩,rest.drop len.toNat)
    else none
  | _ => none

/-- The complete records at the head of a file, and what is left of it. -/
def splitLoop : ℕ → List UInt8 → List Record × List UInt8
  | 0, file => ([],file)
  | k+1, file =>
    match readRecord file with
    | none => ([],file)
    | some (r,rest) => (r::(splitLoop k rest).1,(splitLoop k rest).2)

def split (file : List UInt8) : List Record × List UInt8 := splitLoop (file.length+1) file

/-- The file consists of one or more complete records. -/
def IsImage (file : List UInt8) (records : List Record) : Prop :=
  records ≠ [] ∧ file = records.flatMap Record.bytes

/-- The commands complete, one after the other. -/
def sendAll : List (UInt16 × List UInt8) → Call σ Unit
  | [] => pure ()
  | c::rest => do
    let _ ← hciCommand c.1 c.2
    sendAll rest

/-- The commands of a download: the mini driver, the records and the reset. -/
def commands (records : List Record) : List (UInt16 × List UInt8) :=
  (hciVscDownloadMinidrv,[])::records.map Record.command ++ [(hciReset,[])]

/-- The download succeeds only with a file of complete records, after the commands
of all of them and the reset. -/
def AcceptsOnlyImages (firmware : Option (List UInt8)) (s : σ) : Prop :=
  (downloadFirmware hciCommand firmware s).2 = some () →
    ∃ file records, firmware = some file ∧ IsImage file records ∧
      sendAll hciCommand (commands records) s = downloadFirmware hciCommand firmware s

theorem readRecord_bytes (r : Record) (rest : List UInt8) :
    readRecord (r.bytes ++ rest) = some (r,rest) := by
  have h := r.toNat_length
  simp only [Record.bytes,List.cons_append,readRecord,h,List.length_append,
    Nat.le_add_right,if_true,List.take_left',List.drop_left']

theorem eq_of_readRecord {file rest : List UInt8} {r : Record}
    (h : readRecord file = some (r,rest)) : file = r.bytes ++ rest := by
  match file with
  | [] | [_] | [_,_] => cases h
  | lo::hi::len::file =>
    simp only [readRecord] at h
    split at h
    · obtain ⟨rfl,rfl⟩ := h
      have hlen : (file.take len.toNat).length = len.toNat := List.length_take_of_le ‹_›
      simp only [Record.bytes,hlen,UInt8.ofNat_toNat,List.cons_append,List.take_append_drop]
    · cases h

/-- The records and the rest make up the file. -/
theorem splitLoop_eq (k : ℕ) (file : List UInt8) :
    file = (splitLoop k file).1.flatMap Record.bytes ++ (splitLoop k file).2 := by
  induction k generalizing file with
  | zero => rfl
  | succ k ih =>
    rw [splitLoop]
    cases hr : readRecord file with
    | none => rfl
    | some p =>
      obtain ⟨r,rest⟩ := p
      simp only [List.flatMap_cons,List.append_assoc]
      rw [← ih rest]
      exact eq_of_readRecord hr

theorem splitLoop_flatMap (records : List Record) (k : ℕ) (hk : records.length < k) :
    splitLoop k (records.flatMap Record.bytes) = (records,[]) := by
  induction records generalizing k with
  | nil =>
    obtain ⟨k,rfl⟩ := Nat.exists_eq_succ_of_ne_zero (Nat.ne_of_gt hk)
    rfl
  | cons r records ih =>
    obtain ⟨k,rfl⟩ := Nat.exists_eq_succ_of_ne_zero (Nat.ne_of_gt (Nat.zero_lt_of_lt hk))
    rw [List.flatMap_cons,splitLoop,readRecord_bytes]
    simp only [ih k (Nat.lt_of_succ_lt_succ hk)]

theorem length_le_flatMap (records : List Record) :
    records.length ≤ (records.flatMap Record.bytes).length := by
  induction records with
  | nil => exact Nat.zero_le _
  | cons r records ih =>
    simp only [List.flatMap_cons,List.length_append,List.length_cons,Record.bytes]
    omega

/-- A file is an image exactly if nothing but records is in it. -/
theorem isImage_iff (file : List UInt8) (records : List Record) :
    IsImage file records ↔ records ≠ [] ∧ split file = (records,[]) := by
  refine and_congr_right fun _ => ⟨?_,fun h => ?_⟩
  · rintro rfl
    exact splitLoop_flatMap records _ (Nat.lt_succ_of_le (length_le_flatMap records))
  · have hs := splitLoop_eq (file.length+1) file
    rw [show splitLoop (file.length+1) file = (records,[]) from h,List.append_nil] at hs
    exact hs

variable {hciCommand}

theorem sendAll_append (a b : List (UInt16 × List UInt8)) :
    sendAll hciCommand (a ++ b) = sendAll hciCommand a >>= fun _ => sendAll hciCommand b := by
  induction a with
  | nil => rfl
  | cons c a ih =>
    show (hciCommand c.1 c.2 >>= fun _ => sendAll hciCommand (a ++ b)) = _
    rw [ih,← Call.bind_assoc]
    rfl

/-- The loop sends the complete records, and counts them. -/
theorem downloadLoop_eq (k : ℕ) (file : List UInt8) (count : ℕ) :
    downloadLoop hciCommand k file count =
      sendAll hciCommand ((splitLoop k file).1.map Record.command) >>= fun _ =>
        pure (count + (splitLoop k file).1.length) := by
  induction k generalizing file count with
  | zero => rfl
  | succ k ih =>
    match file with
    | [] | [_] | [_,_] => rfl
    | lo::hi::len::file =>
      have hlen : (file.take len.toNat).length = len.toNat ↔ len.toNat ≤ file.length := by
        rw [List.length_take]
        omega
      simp only [downloadLoop,splitLoop,readRecord,List.take_succ_cons,List.take_zero,
        List.length_cons,List.length_nil,ne_eq,not_true_eq_false,if_false,List.drop_succ_cons,
        List.drop_zero,List.getD_cons_zero,List.getD_cons_succ,hlen]
      by_cases h : len.toNat ≤ file.length
      · simp only [h,not_true_eq_false,if_false,if_true,ih,List.map_cons,List.length_cons]
        show _ = (hciCommand _ _ >>= fun _ => _) >>= _
        rw [Call.bind_assoc]
        congr 1
        funext _
        congr 1
        funext _
        congr 1
        omega
      · simp only [h,not_false_eq_true,if_true,if_false]
        rfl

/-- The download in terms of the records of the file. -/
theorem downloadFirmware_eq (file : List UInt8) :
    downloadFirmware hciCommand (some file) =
      hciCommand hciVscDownloadMinidrv [] >>= fun _ =>
        sendAll hciCommand ((split file).1.map Record.command) >>= fun _ =>
          if (split file).1.length = 0 then Call.fail else sendAll hciCommand [(hciReset,[])] := by
  show hciCommand _ _ >>= (fun _ => downloadLoop _ _ _ _ >>= _) = _
  congr 1
  funext _
  rw [downloadLoop_eq,Call.bind_assoc,Nat.zero_add]
  rfl

/-- With no complete record in the file the download fails. -/
theorem downloadFirmware_none {file : List UInt8} (h : (split file).1 = []) (s : σ) :
    (downloadFirmware hciCommand (some file) s).2 = none := by
  rw [downloadFirmware_eq,h]
  rcases hr : hciCommand hciVscDownloadMinidrv [] s with ⟨t,_ | a⟩
  · rw [Call.bind_none hr]
  · rw [Call.bind_some hr]
    rfl

/-- With a complete record in the file the download is its commands in their order. -/
theorem downloadFirmware_some {file : List UInt8} (h : (split file).1 ≠ []) :
    downloadFirmware hciCommand (some file) = sendAll hciCommand (commands (split file).1) := by
  rw [downloadFirmware_eq,if_neg (Nat.ne_of_gt (List.length_pos_of_ne_nil h)),← sendAll_append]
  rfl

variable (hciCommand) in
/-- A truncated record goes unnoticed exactly if it follows a complete one and all
commands complete. -/
theorem acceptsOnlyImages_iff (firmware : Option (List UInt8)) (s : σ) :
    AcceptsOnlyImages hciCommand firmware s ↔ ∀ file, firmware = some file →
      (split file).2 = [] ∨ (split file).1 = [] ∨
        (sendAll hciCommand (commands (split file).1) s).2 = none := by
  cases firmware with
  | none =>
    simp only [reduceCtorEq,false_implies,implies_true,iff_true]
    intro h
    cases h
  | some file =>
    simp only [AcceptsOnlyImages,Option.some.injEq,forall_eq']
    by_cases hrec : (split file).1 = []
    · simp [hrec,downloadFirmware_none hrec]
    simp only [downloadFirmware_some hrec,hrec,false_or]
    constructor
    · intro h
      rcases hr : (sendAll hciCommand (commands (split file).1) s).2 with _ | _
      · exact Or.inr rfl
      · obtain ⟨_,records,rfl,himage,-⟩ := h hr
        rw [((isImage_iff _ _).mp himage).2]
        exact Or.inl rfl
    · rintro (hrest | hnone) hok
      · exact ⟨file,(split file).1,rfl,(isImage_iff _ _).mpr ⟨hrec,Prod.ext rfl hrest⟩,rfl⟩
      · rw [hnone] at hok
        cases hok

/-- A chip that completes every command, and keeps them. -/
def keepCommands : HciCommand (List (UInt16 × List UInt8)) := fun op params s =>
  (s ++ [(op,params)],some [])

/-- An image whose second record lacks one of its two parameters is accepted. -/
theorem accepts_truncated :
    ¬ AcceptsOnlyImages keepCommands (some [0x4c,0xfc,1,0xaa,0x4c,0xfc,2,0xbb]) [] := by
  intro h
  obtain ⟨_,records,hfile,himage,-⟩ := h (by decide)
  obtain rfl := Option.some.inj hfile
  have hrest : (split _).2 = [] := congrArg Prod.snd ((isImage_iff _ _).mp himage).2
  revert hrest
  decide

end Firmware
end Fm
end Kitakami
