import Kitakami.Fm.Transport

/-!
# The register protocol of the FM chip

The functions of `fm_proto.c` over a transport. A call that returns -1 fails;
`fm_tune` and `fm_seek` return the flag word they have read beside their 0.
-/

namespace Kitakami
namespace Fm

def fmRegRdsSys : UInt8 := 0x00
def fmRegFmCtrl : UInt8 := 0x01
def fmRegAudCtl0 : UInt8 := 0x05
def fmRegSchCtl0 : UInt8 := 0x07
def fmRegFmFreq : UInt8 := 0x0a
def fmRegFmRdsMsk : UInt8 := 0x10
def fmRegRssi : UInt8 := 0x0f
def fmRegSnr : UInt8 := 0xdf
def fmRegVolumeCtrl : UInt8 := 0xf8
def fmRegSearchBound : UInt8 := 0xfb
def fmRegSearchMeth : UInt8 := 0xfc
def fmRegSchStep : UInt8 := 0xfd
def fmRegPresetMax : UInt8 := 0xfe

def fmSysOff : UInt8 := 0x00
def fmSysOn : UInt8 := 0x01
def fmSysRdsOn : UInt8 := 0x02

def fmCtrlBandWest : UInt8 := 0x00
def fmCtrlStereoAuto : UInt8 := 0x02
def fmStep100khz : UInt8 := 0x00

def fmAudManualMute : UInt16 := 0x0002
def fmAudZmuteLOff : UInt16 := 0x0004
def fmAudZmuteROff : UInt16 := 0x0008
def fmAudDacOn : UInt16 := 0x0010
def fmAudI2sOn : UInt16 := 0x0020

def fmScanMethodNormal : UInt8 := 0x00
def fmScanDirectMask : UInt8 := 0xf0
def fmScanUp : UInt8 := 0x80
def fmDefaultRssiThresh : UInt8 := 105
def fmTuneModePreset : UInt8 := 0x01
def fmTuneModeSeek : UInt8 := 0x02

def fmKhzToReg (khz : UInt32) : UInt16 := (khz - 64000).toUInt16
def fmRegToKhz (reg : UInt16) : UInt32 := reg.toUInt32 + 64000

def fmRegWrite (t : FmTransport) (reg : UInt8) (val : List UInt8) : Call Dev Unit :=
  if val.length > 64 - 2 then Call.fail
  else do
    let resp ← t.vsc (reg :: fmRegWr :: val) 64
    if resp.length < 1 ∨ resp.headD 0 ≠ 0 then Call.fail else pure ()

def fmRegWrite8 (t : FmTransport) (reg val : UInt8) : Call Dev Unit := fmRegWrite t reg [val]

def fmRegWrite16 (t : FmTransport) (reg : UInt8) (val : UInt16) : Call Dev Unit :=
  fmRegWrite t reg [(val &&& 0xff).toUInt8,(val >>> 8).toUInt8]

def fmRegRead (t : FmTransport) (reg len : UInt8) (outsz : ℕ) : Call Dev (List UInt8) := do
  let resp ← t.vsc [reg,fmRegRd,len] 128
  if resp.length < 3 ∨ resp.headD 0 ≠ 0 then Call.fail else pure ((resp.drop 3).take outsz)

/-- A 16-bit register value, low byte first. -/
def word (buf : List UInt8) : UInt16 := (buf.getD 0 0).toUInt16 ||| ((buf.getD 1 0).toUInt16 <<< 8)

def fmReadFlags (t : FmTransport) : Call Dev UInt16 := do
  let buf ← fmRegRead t fmRegFmRdsFlag 2 2
  if buf.length < 2 then Call.fail else pure (word buf)

def fmGetFrequency (t : FmTransport) : Call Dev UInt32 := do
  let buf ← fmRegRead t fmRegFmFreq 2 2
  if buf.length < 2 then Call.fail else pure (fmRegToKhz (word buf))

def fmGetRssi (t : FmTransport) : Call Dev ℤ := do
  let buf ← fmRegRead t fmRegRssi 1 1
  if buf.length < 1 then Call.fail else pure (buf.headD 0).toInt8.toInt

def fmGetSnr (t : FmTransport) : Call Dev ℤ := do
  let buf ← fmRegRead t fmRegSnr 1 1
  if buf.length < 1 then Call.fail else pure (buf.headD 0).toNat

def fmEnable (t : FmTransport) (rds : Bool) : Call Dev Unit :=
  fmRegWrite8 t fmRegRdsSys (fmSysOn ||| if rds then fmSysRdsOn else 0)

def fmSetBandEurope (t : FmTransport) : Call Dev Unit := do
  fmRegWrite16 t fmRegSearchBound 0
  fmRegWrite8 t fmRegFmCtrl (fmCtrlStereoAuto ||| fmCtrlBandWest)
  fmRegWrite8 t fmRegSchStep fmStep100khz

def fmSetAudio (t : FmTransport) (i2s dac muted : Bool) : Call Dev Unit :=
  fmRegWrite16 t fmRegAudCtl0 (fmAudZmuteLOff ||| fmAudZmuteROff |||
    (if i2s then fmAudI2sOn else 0) ||| (if dac then fmAudDacOn else 0) |||
    if muted then fmAudManualMute else 0)

def fmSetMute (t : FmTransport) (mute : Bool) : Call Dev Unit := do
  let cur ← fmRegRead t fmRegAudCtl0 2 2
  let ctl := if mute then word cur ||| fmAudManualMute else word cur &&& ~~~fmAudManualMute
  if cur.length < 2 then Call.fail else fmRegWrite16 t fmRegAudCtl0 ctl

def fmSetVolume (t : FmTransport) (vol : UInt8) : Call Dev Unit :=
  fmRegWrite8 t fmRegVolumeCtrl vol

/-- `fm_disable`; a failure to mute does not stop it. -/
def fmDisable (t : FmTransport) : Call Dev Unit := fun d =>
  fmRegWrite8 t fmRegRdsSys fmSysOff (fmSetMute t true d).1

def fmEnableRds (t : FmTransport) (on : Bool) : Call Dev Unit := do
  let cur ← fmRegRead t fmRegRdsSys 1 1
  let val := if on then cur.headD 0 ||| fmSysRdsOn else cur.headD 0 &&& ~~~fmSysRdsOn
  if cur.length < 1 then Call.fail else fmRegWrite8 t fmRegRdsSys val

/-- The loop of `fm_wait_tune`. -/
def fmWaitTuneLoop (t : FmTransport) : ℕ → Call Dev Unit
  | 0 => Call.fail
  | k+1 => do
    let evt ← t.waitEvent 300
    if isFmEvent evt then pure () else fmWaitTuneLoop t k

/-- `fm_wait_tune`. Each round takes a pending event or waits for the chip. -/
def fmWaitTune (t : FmTransport) : Call Dev UInt16 := do
  fun d => fmWaitTuneLoop t (d.queue.count + d.script.length + 1) d
  fmReadFlags t

def fmTune (t : FmTransport) (khz : UInt32) : Call Dev UInt16 := do
  fmRegWrite16 t fmRegFmFreq (fmKhzToReg khz)
  fmRegWrite16 t fmRegFmRdsMsk (fmMaskTuneCmpl ||| fmMaskTuneFail)
  fmRegWrite8 t fmRegSchTune fmTuneModePreset
  let flags ← fmWaitTune t
  if flags &&& fmMaskTuneFail ≠ 0 then Call.fail else pure flags

def fmSeek (t : FmTransport) (startKhz : UInt32) (up : Bool) : Call Dev (UInt16 × UInt32) := do
  fmRegWrite8 t fmRegSearchMeth fmScanMethodNormal
  fmRegWrite8 t fmRegPresetMax 0
  fmRegWrite8 t fmRegSchCtl0
    (fmDefaultRssiThresh ||| ((if up then fmScanUp else 0) &&& fmScanDirectMask))
  fmRegWrite16 t fmRegFmFreq (fmKhzToReg startKhz)
  fmRegWrite16 t fmRegFmRdsMsk (fmMaskTuneCmpl ||| fmMaskTuneFail)
  fmRegWrite8 t fmRegSchTune fmTuneModeSeek
  let flags ← fmWaitTune t
  if flags &&& fmMaskTuneFail ≠ 0 then Call.fail
  else do
    let foundKhz ← fmGetFrequency t
    pure (flags,foundKhz)

/-- The calls a client of the driver makes. -/
inductive DriverCall
  | regRead (reg len : UInt8) (outsz : ℕ)
  | regWrite (reg : UInt8) (val : List UInt8)
  | tune (khz : UInt32)
  | seek (startKhz : UInt32) (up : Bool)
  deriving DecidableEq

/-- The state after a call, whether it fails or not. -/
def DriverCall.exec (t : FmTransport) (d : Dev) : DriverCall → Dev
  | .regRead reg len outsz => (fmRegRead t reg len outsz d).1
  | .regWrite reg val => (fmRegWrite t reg val d).1
  | .tune khz => (fmTune t khz d).1
  | .seek startKhz up => (fmSeek t startKhz up d).1

end Fm
end Kitakami
