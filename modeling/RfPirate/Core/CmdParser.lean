/-
Module: RfPirate.Core.CmdParser
Layer: Core
Purpose: `cmd_parser.cpp`: the command table, the in-place tokenizer and the lookup of a command.
  Token pointers are offsets into the `data` of the `string_t` that is parsed. Passing a NULL name
  or a NULL token to `strncmp` is a fault of the parse, not a result.
Main exports: CmdTable, cmdpInit, cmdTbl, cmdpRegisterCmd, TokT, tokenize, Lookup, matchLoop,
  parsedStr, cmdpParseCmd, UsbSerial.parseCmd
-/
import RfPirate.Core.UsbSerial

namespace RfPirate

open Lib Lib.CString

def maxArgs : Nat := 2
def maxCmds : Nat := 10

/-- Address of a command callback (`cmd_cb_t`). -/
abbrev CmdCb := Nat

/-- `cmd_entry_t`. -/
structure CmdEntryT where
  cmd : Option CStr
  cb : Option CmdCb
deriving DecidableEq

/-- `cmd_tbl`, of which the first `MAX_CMDS` slots exist. -/
abbrev CmdTable := Nat → CmdEntryT

/-- `cmdp_init`. -/
def cmdpInit (tbl : CmdTable) : CmdTable := fun i => if i < maxCmds then ⟨none, none⟩ else tbl i

/-- `cmd_tbl` as `cmdp_init` leaves it. Nothing in the firmware registers a command. -/
def cmdTbl : CmdTable := cmdpInit fun _ => ⟨none, none⟩

/-- The `for` loop of `cmdp_register_cmd` with `n` rounds to go, and `i` after it. A free slot is
    filled and the loop goes on. -/
def registerLoop (cmd : Option CStr) (cb : Option CmdCb) : Nat → Nat → CmdTable → CmdTable × Nat
  | 0, i, tbl => (tbl, i)
  | n + 1, i, tbl =>
      registerLoop cmd cb n (i + 1)
        (if (tbl i).cmd = none then Function.update tbl i ⟨cmd, cb⟩ else tbl)

/-- `cmdp_register_cmd`. -/
def cmdpRegisterCmd (tbl : CmdTable) (cmd : Option CStr) (cb : Option CmdCb) : CmdTable × UInt8 :=
  let r := registerLoop cmd cb maxCmds 0 tbl
  (r.1, if r.2 ≠ maxCmds then 0 else 1)

/-! ### Tokenizer -/

/-- `tok_t`; a NULL pointer is `none`. -/
structure TokT where
  cmd : Option Nat
  arg : Nat → Option Nat

/-- The variables of the tokenizer: the line, the start of the current token, the tokens found. -/
structure TokState where
  data : Nat → UInt8
  tok : Nat
  token : TokT
  argIdx : Nat

/-- The bytes that end a token. -/
def isSep (b : UInt8) : Bool := b = charSpace ∨ b = 0

/-- The body of the tokenizing loop at index `i`. -/
def tokStep (t : TokState) (i : Nat) : TokState :=
  if isSep (t.data i) then
    let t₁ : TokState :=
      match t.token.cmd with
      | none => { t with token := { t.token with cmd := some t.tok } }
      | some _ =>
          { t with
            token := { t.token with arg := Function.update t.token.arg t.argIdx (some t.tok) }
            argIdx := t.argIdx + 1 }
    { t₁ with data := Function.update t.data i 0, tok := i + 1 }
  else t

/-- The tokenizing loop from index `i` on, with `n` bytes of the line to go. -/
def tokLoop : Nat → Nat → TokState → TokState
  | 0, _, t => t
  | n + 1, i, t => if t.argIdx < maxArgs then tokLoop n (i + 1) (tokStep t i) else t

/-- The first half of `cmdp_parse_cmd`, from the `memset` to the end of the loop. -/
def tokenize (str : StringT) : TokState :=
  tokLoop str.len 0 { data := str.data, tok := 0, token := ⟨none, fun _ => none⟩, argIdx := 0 }

/-! ### Lookup -/

/-- How the match loop ends: at a matching slot, behind the last slot, or in `strlen` of a NULL
    name. -/
inductive Lookup where
  | found (i : Nat)
  | missing
  | nullName (i : Nat)
deriving DecidableEq, Repr

/-- The match loop from slot `i` on, with `n` slots to go. -/
def matchLoop (tbl : CmdTable) (cmd : List UInt8) : Nat → Nat → Lookup
  | 0, _ => .missing
  | n + 1, i =>
      match (tbl i).cmd with
      | none => .nullName i
      | some name =>
          if strncmp name.bytes cmd name.bytes.length = 0 then .found i
          else matchLoop tbl cmd n (i + 1)

/-- What a parse does besides writing to the line. -/
inductive CmdAct where
  | call (cb : CmdCb) (argc : Nat) (tok : TokT)
  | print (text : List UInt8)

/-- Undefined behaviour in a parse: the token or the name of a slot is NULL. -/
inductive ParseFault where
  | nullToken
  | nullName (i : Nat)
deriving DecidableEq, Repr

/-- `"Bad cmd [%s]\r\n"`. -/
def badCmd (cmd : List UInt8) : List UInt8 :=
  [66, 97, 100, 32, 99, 109, 100, 32, 91] ++ cmd ++ [93, 13, 10]

/-- The C string a token pointer points to. -/
def tokenText (data : Nat → UInt8) (p : Nat) : List UInt8 :=
  cstr (usbSerialBufSz - p) (fun i => data (p + i))

/-- `RELEASE_BUF` of the token at `p`. -/
def releaseBuf (data : Nat → UInt8) (p : Nat) : Nat → UInt8 := Function.update data p 0

/-- The line when the parse is through with it, whatever the lookup does. -/
def parsedStr (str : StringT) : StringT :=
  let t := tokenize str
  match t.token.cmd with
  | none => { str with data := t.data }
  | some p => { str with data := releaseBuf t.data p }

/-- `cmdp_parse_cmd`: the line after it, and what it called or printed. The callback does not write
    to the line. -/
def cmdpParseCmd (tbl : CmdTable) (str : StringT) : Except ParseFault (StringT × List CmdAct) :=
  let t := tokenize str
  match t.token.cmd with
  | none => .error .nullToken
  | some p =>
      let released : StringT := { str with data := releaseBuf t.data p }
      match matchLoop tbl (tokenText t.data p) maxCmds 0 with
      | .nullName i => .error (.nullName i)
      | .missing => .ok (released, [.print (badCmd (tokenText t.data p))])
      | .found i =>
          match (tbl i).cb with
          | none => .ok (released, [])
          | some cb => .ok (released, [.call cb t.argIdx t.token])

theorem cmdpParseCmd_line {tbl : CmdTable} {str str' : StringT} {acts : List CmdAct}
    (h : cmdpParseCmd tbl str = .ok (str', acts)) : str' = parsedStr str := by
  unfold cmdpParseCmd at h
  unfold parsedStr
  cases hcmd : (tokenize str).token.cmd with
  | none => simp [hcmd] at h
  | some p =>
      simp only [hcmd] at h ⊢
      cases hlook : matchLoop tbl (tokenText (tokenize str).data p) maxCmds 0 with
      | nullName i => simp [hlook] at h
      | missing =>
          simp only [hlook, Except.ok.injEq, Prod.mk.injEq] at h
          exact h.1.symm
      | found i =>
          simp only [hlook] at h
          split at h <;>
          · simp only [Except.ok.injEq, Prod.mk.injEq] at h
            exact h.1.symm

/-! ### Lines of the serial object -/

/-- What a parse does besides writing to the line, with `ser` as the object that prints. The
    callback of a command would be code that is not there. -/
def cmdAct (o : PostInc) (ser : UsbSerial) : CmdAct → Option UsbSerial
  | .print text => some (printf o ser (toCStr text))
  | .call _ _ _ => none

/-- `cmdp_parse_cmd` of the line in `rx_q[p]`. `none` when the parse is a fault. -/
def UsbSerial.parseCmd (ser : UsbSerial) (tbl : CmdTable) (o : PostInc) (p : Nat) :
    Option UsbSerial :=
  match cmdpParseCmd tbl (ser.rxQ p) with
  | .error _ => none
  | .ok (line, acts) =>
      acts.foldlM (cmdAct o) { ser with rxQ := Function.update ser.rxQ p line }

end RfPirate
