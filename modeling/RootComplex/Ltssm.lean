import RootComplex.Word
import RootComplex.Register.PortLogic

/-! States of the link training state machine, as the link debug word reports them. -/

namespace RootComplex

/-- A state code. The debug word has six bits for it, of which 36 values are named. -/
structure Ltssm where
  code : Nat
  deriving DecidableEq, Repr

namespace Ltssm

def names : List String := [
  "DETECT_QUIET", "DETECT_ACT", "POLL_ACTIVE", "POLL_COMPLIANCE", "POLL_CONFIG",
  "PRE_DETECT_QUIET", "DETECT_WAIT", "CFG_LINKWD_START", "CFG_LINKWD_ACEPT",
  "CFG_LANENUM_WAI", "CFG_LANENUM_ACEPT", "CFG_COMPLETE", "CFG_IDLE", "RCVRY_LOCK",
  "RCVRY_SPEED", "RCVRY_RCVRCFG", "RCVRY_IDLE", "L0", "L0S", "L123_SEND_EIDLE", "L1_IDLE",
  "L2_IDLE", "L2_WAKE", "DISABLED_ENTRY", "DISABLED_IDLE", "DISABLED", "LPBK_ENTRY",
  "LPBK_ACTIVE", "LPBK_EXIT", "LPBK_EXIT_TIMEOUT", "HOT_RESET_ENTRY", "HOT_RESET",
  "RCVRY_EQ0", "RCVRY_EQ1", "RCVRY_EQ2", "RCVRY_EQ3"]

def detectActive : Ltssm := ⟨0x01⟩
def pollCompliance : Ltssm := ⟨0x03⟩
def preDetectQuiet : Ltssm := ⟨0x05⟩
def l0 : Ltssm := ⟨0x11⟩

def name? (s : Ltssm) : Option String := names[s.code]?

/-- The name, or the code of an unnamed state. -/
def text (s : Ltssm) : String := s.name?.getD (Text.hexByte s.code)

/-- The state machine has left the detect states, so a receiver was seen. -/
def partnerDetected (s : Ltssm) : Bool := detectActive.code < s.code

/-- The states that the machine does not leave by itself. -/
def isLockup (s : Ltssm) : Bool := s = pollCompliance || s = preDetectQuiet

end Ltssm

namespace LinkDebug

def state (debug : Word) : Ltssm := ⟨ltssm.get debug⟩

def isUp (debug : Word) : Bool :=
  state debug = .l0 && physicalUp.test debug && dataLinkUp.test debug

end LinkDebug

end RootComplex
