import Jamsesh.Prereceive
import Mathlib.Data.Nat.Digits.Defs
/-!
# PktLine — the command list of a push (`githttp/pktline.go`)

A push body is a list of packets, each behind its length in four hex digits, up to a flush packet; what follows is the pack.
A character stands for one byte.
-/
namespace Jamsesh.Githttp

open Git Prereceive

inductive ReadErr where
  | eof | unexpectedEOF
deriving DecidableEq

inductive PktErr where
  | lengthPrefix (e : ReadErr)
  | hexDigit (c : Char)
  | packetLength (n : Nat)
  | payload (e : ReadErr)
  | commandLine (line : Text)
deriving DecidableEq

/-- `io.ReadFull`: what is read and what is left. -/
def readFull (n : Nat) (s : Text) : Except ReadErr (Text × Text) :=
  if s.length < n then .error (if s = [] then .eof else .unexpectedEOF) else .ok (s.take n, s.drop n)

def hexLength : Text → Nat → Except PktErr Nat
  | [], n => .ok n
  | c :: cs, n =>
    match hexDigit c with
    | none => .error (.hexDigit c)
    | some d => hexLength cs (16 * n + d)

def readPktLineLen (s : Text) : Except PktErr (Nat × Text) :=
  match readFull 4 s with
  | .error e => .error (.lengthPrefix e)
  | .ok (buf, rest) => (hexLength buf 0).map (·, rest)

/-- One packet; `none` is the flush packet. -/
def readPacket (s : Text) : Except PktErr (Option Text × Text) :=
  match readPktLineLen s with
  | .error e => .error e
  | .ok (n, rest) =>
    if n = 0 then .ok (none, rest)
    else if n < 4 then .error (.packetLength n)
    else match readFull (n - 4) rest with
      | .error e => .error (.payload e)
      | .ok (payload, rest') => .ok (some payload, rest')

/-- The three-byte runes of `unicode.IsSpace`. -/
def wideSpaces : List (List Nat) :=
  [[0xe1, 0x9a, 0x80], [0xe2, 0x80, 0xa8], [0xe2, 0x80, 0xa9], [0xe2, 0x80, 0xaf], [0xe2, 0x81, 0x9f], [0xe3, 0x80, 0x80]] ++
    (List.range 11).map (fun i => [0xe2, 0x80, 0x80 + i])

def spaceWidth (s : Text) : Nat :=
  let bytes := (s.take 3).map Char.toNat
  if bytes.take 1 ∈ [[9], [10], [11], [12], [13], [32]] then 1
  else if bytes.take 2 ∈ [[0xc2, 0x85], [0xc2, 0xa0]] then 2
  else if bytes ∈ wideSpaces then 3
  else 0

/-- The words of a text from the middle of one, behind `skip` bytes of a space. -/
def fieldsLoop : Nat → Text → Text → List Text
  | _, word, [] => if word = [] then [] else [word]
  | skip + 1, word, _ :: s => fieldsLoop skip word s
  | 0, word, c :: s =>
    if spaceWidth (c :: s) = 0 then fieldsLoop 0 (word ++ [c]) s
    else (if word = [] then [] else [word]) ++ fieldsLoop (spaceWidth (c :: s) - 1) [] s

def fields (s : Text) : List Text := fieldsLoop 0 [] s

def zeroSHA : Text := List.replicate 40 '0'

def parseCommand (payload : Text) : Except PktErr (RefUpdate × List Text) :=
  let caps := match Text.index payload ['\x00'] with
    | some i => fields (Text.trimSuffix (payload.drop (i + 1)) ['\n'])
    | none => []
  let line := match Text.index payload ['\x00'] with
    | some i => payload.take i
    | none => payload
  let line := Text.trimSuffix line ['\n']
  match Text.splitAtMost ' ' 2 line with
  | [old, new, ref] =>
    .ok (⟨String.ofList ref, if old = zeroSHA then "" else String.ofList old, String.ofList new⟩, caps)
  | _ => .error (.commandLine line)

structure CommandList where
  updates : List RefUpdate
  caps : List Text
  pack : Text
deriving DecidableEq

theorem readFull_length {n : Nat} {s a b : Text} (h : readFull n s = .ok (a, b)) : b.length + n = s.length := by
  unfold readFull at h
  split at h <;> cases h
  rw [List.length_drop]
  omega

theorem readPacket_length {s rest : Text} {packet : Option Text} (h : readPacket s = .ok (packet, rest)) :
    rest.length < s.length := by
  unfold readPacket readPktLineLen at h
  cases hf : readFull 4 s with
  | error => rw [hf] at h; cases h
  | ok out =>
    obtain ⟨buf, _⟩ := out
    have hl := readFull_length hf
    rw [hf] at h
    dsimp only at h
    cases hh : hexLength buf 0 with
    | error => rw [hh] at h; cases h
    | ok =>
      rw [hh] at h
      dsimp only [Except.map] at h
      split at h
      · cases h
        omega
      split at h
      · cases h
      split at h
      · cases h
      rename_i hp
      have hl' := readFull_length hp
      cases h
      omega

def readCommandList (s : Text) : Except PktErr CommandList :=
  match h : readPacket s with
  | .error e => .error e
  | .ok (none, rest) => .ok ⟨[], [], rest⟩
  | .ok (some payload, rest) =>
    have : rest.length < s.length := readPacket_length h
    match parseCommand payload with
    | .error e => .error e
    | .ok (u, caps) => (readCommandList rest).map (fun l => ⟨u :: l.updates, caps ++ l.caps, l.pack⟩)
termination_by s.length

theorem readCommandList_flush {s rest : Text} (h : readPacket s = .ok (none, rest)) :
    readCommandList s = .ok ⟨[], [], rest⟩ := by
  rw [readCommandList]
  split <;> simp_all

theorem readCommandList_command {s rest payload : Text} {u : RefUpdate} {caps : List Text}
    (h : readPacket s = .ok (some payload, rest)) (hu : parseCommand payload = .ok (u, caps)) :
    readCommandList s = (readCommandList rest).map (fun l => ⟨u :: l.updates, caps ++ l.caps, l.pack⟩) := by
  rw [readCommandList]
  split <;> simp_all

/-! ## Packets as they are written

`%04x` writes a length in four hex digits, and in more when it does not fit.  A packet whose length fits is read back with
whatever follows it (`readPacket_frame`).  The packets of a body are those up to its flush packet (`packets`). -/

/-- `%04x` -/
def hex4 (n : Nat) : Text := (Nat.digits 16 (n / 65536)).reverse.map hexChar ++ lowDigits n

/-- `writePktLine`: a packet behind its length. -/
def frame (payload : Text) : Text := hex4 (payload.length + 4) ++ payload

def flush : Text := "0000".toList

theorem hex4_of_lt {n : Nat} (h : n < 65536) : hex4 n = lowDigits n := by
  rw [hex4, Nat.div_eq_of_lt h, Nat.digits_zero]
  rfl

theorem readPktLineLen_lowDigits {n : Nat} (h : n < 65536) (rest : Text) :
    readPktLineLen (lowDigits n ++ rest) = .ok (n, rest) := by
  have hf : readFull 4 (lowDigits n ++ rest) = .ok (lowDigits n, rest) := by
    rw [readFull, if_neg (by simp [lowDigits])]
    rfl
  have hv : 16 * (16 * (16 * (16 * 0 + n / 4096 % 16) + n / 256 % 16) + n / 16 % 16) + n % 16 = n := by omega
  have hr : hexLength (lowDigits n) 0 = .ok n := by
    simp only [lowDigits, hexLength, hexDigit_hexChar (Nat.mod_lt _ (by decide)), hv]
  rw [readPktLineLen, hf]
  simp only [hr, Except.map]

/-! ## Packets -/

theorem readPacket_frame {payload : Text} (h : payload.length + 4 < 65536) (rest : Text) :
    readPacket (frame payload ++ rest) = .ok (some payload, rest) := by
  rw [frame, hex4_of_lt h, List.append_assoc, readPacket, readPktLineLen_lowDigits h]
  simp only [Nat.add_eq_zero_iff, OfNat.ofNat_ne_zero, and_false, if_false, Nat.add_sub_cancel]
  rw [if_neg (by omega), readFull, if_neg (by simp), List.take_left, List.drop_left]

theorem readPacket_flush (rest : Text) : readPacket (flush ++ rest) = .ok (none, rest) := by
  have hf : flush = lowDigits 0 := by decide
  rw [readPacket, hf, readPktLineLen_lowDigits (by decide)]
  rfl

def packets (s : Text) : List Text :=
  match h : readPacket s with
  | .error _ => []
  | .ok (none, _) => []
  | .ok (some payload, rest) =>
    have : rest.length < s.length := readPacket_length h
    payload :: packets rest
termination_by s.length

theorem packets_flush {s rest : Text} (h : readPacket s = .ok (none, rest)) : packets s = [] := by
  rw [packets]
  split <;> simp_all

theorem packets_packet {s payload rest : Text} (h : readPacket s = .ok (some payload, rest)) :
    packets s = payload :: packets rest := by
  rw [packets]
  split <;> simp_all

end Jamsesh.Githttp
