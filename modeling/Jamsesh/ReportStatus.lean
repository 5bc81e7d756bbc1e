import Jamsesh.AcceptedRefs
import Jamsesh.CommandLists
/-!
# ReportStatus — the report of a push that is rejected

Each line of the report is put into a packet, and that into a side-band packet.  A client (`demux`, `pktLines`) finds one line
for each update exactly when neither the refs nor the reasons have a newline, and no line is too long for its packet
(`report_wellFormed_iff`).
-/
namespace Jamsesh.Githttp

open Git List Prereceive

/-! ## What is written -/

def writeSidebandPktLine (band : Char) (payload : Text) : Text := hex4 (4 + 1 + payload.length) ++ band :: payload

/-- `r.Details["ref"].(string)`, when it is not empty. -/
def refDetail (r : Rejection) : Option String :=
  match r.details.lookup "ref" with
  | some (.str ref) => if ref = "" then none else some ref
  | _ => none

structure Reasons where
  perRef : List (String × String)
  globalReason : String

def Reasons.add (reasons : Reasons) (r : Rejection) : Reasons :=
  match refDetail r with
  | some ref =>
    if (reasons.perRef.lookup ref).isSome then reasons
    else { reasons with perRef := reasons.perRef ++ [(ref, r.message)] }
  | none => if reasons.globalReason = "" then { reasons with globalReason := r.message } else reasons

def Reasons.reason (reasons : Reasons) (ref : String) : String :=
  let reason := (reasons.perRef.lookup ref).getD ""
  let reason := if reason = "" then reasons.globalReason else reason
  if reason = "" then "rejected by server policy" else reason

def ngLine (u : RefUpdate) (reason : String) : Text := "ng ".toList ++ (u.ref.toList ++ ' ' :: (reason.toList ++ ['\n']))

def writeLine (payload : Text) : Text := writeSidebandPktLine '\x01' (frame payload)

def writeReportStatusRejection (updates : List RefUpdate) (rejections : List Rejection) : Text :=
  let reasons := rejections.foldl Reasons.add ⟨[], ""⟩
  writeLine "unpack ok\n".toList ++
    (updates.flatMap (fun u => writeLine (ngLine u (reasons.reason u.ref))) ++ (writeSidebandPktLine '\x01' flush ++ flush))

/-! ## What is read -/

/-- The packets of a stream that ends with its flush packet. -/
def pktLines (s : Text) : Option (List Text) :=
  match h : readPacket s with
  | .error _ => none
  | .ok (none, rest) => if rest = [] then some [] else none
  | .ok (some payload, rest) =>
    have : rest.length < s.length := readPacket_length h
    (pktLines rest).map (payload :: ·)
termination_by s.length

/-- What a side-band packet adds to band 1; bands 2 and 3 are for the user. -/
def bandData : Text → Option Text
  | [] => none
  | band :: data =>
    if data.length + 5 > maxPacket then none
    else if band = '\x01' then some data
    else if band = '\x02' ∨ band = '\x03' then some []
    else none

def demux (s : Text) : Option Text := (pktLines s).bind (fun packets => (packets.mapM bandData).map List.flatten)

def IsNgLine (u : RefUpdate) (line : Text) : Prop :=
  ∃ reason : String, line = ngLine u reason ∧ '\n' ∉ u.ref.toList ∧ '\n' ∉ reason.toList

/-- **The report of a push**: `unpack ok`, then a line for each update in their order. -/
def IsReport (updates : List RefUpdate) (s : Text) : Prop :=
  ∃ data lines, demux s = some data ∧ pktLines data = some ("unpack ok\n".toList :: lines) ∧
    List.Forall₂ IsNgLine updates lines

/-- **The reason for a ref**: the message of the first rejection that names it; where that is empty, the first message that is
not of the rejections that name none. -/
def reasonFor (rejections : List Rejection) (ref : String) : String :=
  let own := ((rejections.find? (fun r => refDetail r = some ref)).map (·.message)).getD ""
  let common := ((rejections.find? (fun r => refDetail r = none ∧ r.message ≠ "")).map (·.message)).getD ""
  if own ≠ "" then own else if common ≠ "" then common else "rejected by server policy"

/-! ## Reasons -/

theorem perRef_foldl (rejections : List Rejection) (ref : String) : ∀ reasons : Reasons,
    (rejections.foldl Reasons.add reasons).perRef.lookup ref =
      (reasons.perRef.lookup ref).or ((rejections.find? (fun r => refDetail r = some ref)).map (·.message)) := by
  induction rejections with
  | nil => simp
  | cons r _ ih =>
    intro reasons
    rw [foldl_cons, ih, List.find?_cons]
    unfold Reasons.add
    cases refDetail r with
    | none =>
      dsimp only
      split <;> simp
    | some ref' =>
      by_cases hr : ref' = ref
      · subst hr
        cases ho : reasons.perRef.lookup ref' <;> simp [ho, lookup_append]
      · have hne : (ref == ref') = false := by simpa using Ne.symm hr
        dsimp only
        split <;> simp [hr, lookup_append, hne]

theorem globalReason_foldl (rejections : List Rejection) : ∀ reasons : Reasons,
    (rejections.foldl Reasons.add reasons).globalReason =
      if reasons.globalReason = "" then
        ((rejections.find? (fun r => refDetail r = none ∧ r.message ≠ "")).map (·.message)).getD ""
      else reasons.globalReason := by
  induction rejections with
  | nil =>
    intro reasons
    by_cases h : reasons.globalReason = "" <;> simp
  | cons r _ ih =>
    intro reasons
    rw [foldl_cons, ih, List.find?_cons]
    unfold Reasons.add
    cases refDetail r with
    | some =>
      dsimp only
      split <;> simp
    | none => by_cases ho : reasons.globalReason = "" <;> by_cases hm : r.message = "" <;> simp [ho, hm]

theorem reason_foldl (rejections : List Rejection) (ref : String) :
    (rejections.foldl Reasons.add ⟨[], ""⟩).reason ref = reasonFor rejections ref := by
  simp only [Reasons.reason, perRef_foldl, globalReason_foldl, reasonFor]
  split <;> simp_all

/-! ## Packets -/

theorem pktLines_flush : pktLines flush = some [] := by
  have h : readPacket flush = .ok (none, []) := by decide
  rw [pktLines]
  split <;> simp_all

theorem pktLines_packet {s payload rest : Text} (h : readPacket s = .ok (some payload, rest)) :
    pktLines s = (pktLines rest).map (payload :: ·) := by
  rw [pktLines]
  split <;> simp_all

theorem pktLines_frames {lines : List Text} (h : ∀ line ∈ lines, line.length + 4 < 65536) :
    pktLines (lines.flatMap frame ++ flush) = some lines := by
  induction lines with
  | nil => exact pktLines_flush
  | cons _ _ ih =>
    obtain ⟨hline, hl⟩ := forall_mem_cons.1 h
    rw [flatMap_cons, append_assoc, pktLines_packet (readPacket_frame hline _), ih hl]
    rfl

theorem hexChar_of_mem_hex4 {n : Nat} {c : Char} (h : c ∈ hex4 n) : ∃ k < 16, c = hexChar k := by
  rw [hex4, mem_append, mem_map] at h
  rcases h with ⟨k, hk, rfl⟩ | h
  · exact ⟨k, Nat.digits_lt_base (by decide) (mem_reverse.1 hk), rfl⟩
  · simp only [lowDigits, mem_cons, not_mem_nil, or_false] at h
    rcases h with rfl | rfl | rfl | rfl <;> exact ⟨_, Nat.mod_lt _ (by decide), rfl⟩

theorem readPacket_cons {head t rest : Text} {d : Char} {packet : Option Text} (hh : head.length = 4)
    (h : readPacket (head ++ d :: t) = .ok (packet, rest)) :
    (packet = none ∧ rest ≠ []) ∨ packet = some [] ∨ ∃ data, packet = some (d :: data) := by
  have hf : readFull 4 (head ++ d :: t) = .ok (head, d :: t) := by
    rw [readFull, if_neg (by simp [hh]), ← hh, take_left, drop_left]
  rw [readPacket, readPktLineLen, hf] at h
  cases hn : hexLength head 0 with
  | error => simp [hn, Except.map] at h
  | ok n =>
    simp only [hn, Except.map, readFull] at h
    split at h
    · cases h
      exact .inl ⟨rfl, cons_ne_nil _ _⟩
    split at h
    · cases h
    generalize n - 4 = k at h
    split at h
    · cases h
    rename_i hc
    split at hc <;> cases hc
    cases h
    cases k with
    | zero => exact .inr (.inl rfl)
    | succ => exact .inr (.inr ⟨_, rfl⟩)

/-- The fifth digit of a length is where the band belongs. -/
theorem demux_overflow {n : Nat} (h : 65536 ≤ n) (rest : Text) : demux (hex4 n ++ rest) = none := by
  have hl : 5 ≤ (hex4 n).length := by
    have hp := length_pos_iff.2 (Nat.digits_ne_nil_iff_ne_zero (b := 16).2 (by omega : n / 65536 ≠ 0))
    simp only [hex4, length_append, length_map, length_reverse, lowDigits, length_cons]
    omega
  have hs : hex4 n = (hex4 n).take 4 ++ (hex4 n).get ⟨4, hl⟩ :: (hex4 n).drop 5 := by
    rw [get_eq_getElem, getElem_cons_drop, take_append_drop]
  obtain ⟨k, hk, hd⟩ := hexChar_of_mem_hex4 (get_mem (hex4 n) ⟨4, hl⟩)
  have hb : ∀ data, bandData (hexChar k :: data) = none := fun _ => by
    have ha : ∀ k : Fin 16, hexChar k.val ≠ '\x01' ∧ hexChar k.val ≠ '\x02' ∧ hexChar k.val ≠ '\x03' := by decide
    simp [bandData, ha ⟨k, hk⟩]
  rw [demux]
  cases hr : readPacket (hex4 n ++ rest) with
  | error =>
    rw [pktLines]
    split <;> simp_all
  | ok out =>
    obtain ⟨_, rest'⟩ := out
    have hc := hr
    rw [hs, hd, append_assoc, cons_append] at hc
    rcases readPacket_cons (by rw [length_take]; omega) hc with ⟨rfl, _⟩ | rfl | ⟨_, rfl⟩
    · rw [pktLines]
      split <;> simp_all
    · rw [pktLines_packet hr]
      cases pktLines rest' <;> simp [bandData]
    · rw [pktLines_packet hr]
      cases pktLines rest' <;> simp [hb]

theorem demux_sideband (payload rest : Text) :
    demux (writeSidebandPktLine '\x01' payload ++ rest) =
      if payload.length + 5 ≤ maxPacket then (demux rest).map (payload ++ ·) else none := by
  have hl : 4 + 1 + payload.length = ('\x01' :: payload).length + 4 := by simp; omega
  have hf : writeSidebandPktLine '\x01' payload = frame ('\x01' :: payload) := by rw [writeSidebandPktLine, hl, frame]
  by_cases ho : 65536 ≤ 4 + 1 + payload.length
  · rw [writeSidebandPktLine, append_assoc, demux_overflow ho, if_neg (by unfold maxPacket; omega)]
  have hr : readPacket (frame ('\x01' :: payload) ++ rest) = .ok (some ('\x01' :: payload), rest) :=
    readPacket_frame (by simp; omega) rest
  rw [hf, demux, pktLines_packet hr, demux]
  by_cases hfit : payload.length + 5 ≤ maxPacket
  · have hb : bandData ('\x01' :: payload) = some payload := by simp [bandData, Nat.not_lt.2 hfit]
    rw [if_pos hfit]
    cases pktLines rest with
    | none => simp
    | some packets => cases hm : packets.mapM bandData <;> simp [hb, hm]
  · have hb : bandData ('\x01' :: payload) = none := by simp [bandData, Nat.lt_of_not_le hfit]
    rw [if_neg hfit]
    cases pktLines rest <;> simp [hb]

theorem frame_fits {line : Text} : (frame line).length + 5 ≤ maxPacket ↔ line.length + 9 ≤ maxPacket := by
  have hl : ∀ n, (lowDigits n).length = 4 := fun n => rfl
  rw [frame, length_append]
  by_cases hf : line.length + 4 < 65536
  · rw [hex4_of_lt hf, hl]
    omega
  · rw [hex4, length_append, hl]
    unfold maxPacket
    omega

theorem demux_lines (lines : List Text) :
    demux (lines.flatMap writeLine ++ (writeSidebandPktLine '\x01' flush ++ flush)) =
      if ∀ line ∈ lines, line.length + 9 ≤ maxPacket then some (lines.flatMap frame ++ flush) else none := by
  induction lines with
  | nil =>
    have hf : demux flush = some [] := by simp [demux, pktLines_flush]
    rw [flatMap_nil, nil_append, demux_sideband, if_pos (by decide), hf]
    simp
  | cons line _ ih =>
    rw [flatMap_cons, append_assoc, writeLine, demux_sideband, ih]
    simp only [frame_fits]
    by_cases hl : line.length + 9 ≤ maxPacket <;>
      simp [hl]

/-! ## The report -/

/-- The line of an update is one line, and fits into its packet. -/
def LineFits (rejections : List Rejection) (u : RefUpdate) : Prop :=
  '\n' ∉ u.ref.toList ∧ '\n' ∉ (reasonFor rejections u.ref).toList ∧
    u.ref.toList.length + (reasonFor rejections u.ref).toList.length + 14 ≤ maxPacket

def reportLines (updates : List RefUpdate) (rejections : List Rejection) : List Text :=
  "unpack ok\n".toList :: updates.map (fun u => ngLine u (reasonFor rejections u.ref))

theorem writeReportStatusRejection_eq (updates : List RefUpdate) (rejections : List Rejection) :
    writeReportStatusRejection updates rejections =
      (reportLines updates rejections).flatMap writeLine ++ (writeSidebandPktLine '\x01' flush ++ flush) := by
  simp only [writeReportStatusRejection, reason_foldl, reportLines, flatMap_cons, flatMap_map, append_assoc]

variable {updates : List RefUpdate} {rejections : List Rejection}

theorem reportLines_fit_iff : (∀ line ∈ reportLines updates rejections, line.length + 9 ≤ maxPacket) ↔
      ∀ u ∈ updates, u.ref.toList.length + (reasonFor rejections u.ref).toList.length + 14 ≤ maxPacket := by
  have hl : ∀ u reason, (ngLine u reason).length = u.ref.toList.length + reason.toList.length + 5 := fun u _ => by
    simp [ngLine]
    omega
  have hu : "unpack ok\n".toList.length + 9 ≤ maxPacket := by decide
  simp only [reportLines, forall_mem_cons, forall_mem_map, hl, hu, true_and]

theorem isNgLine_iff {u : RefUpdate} {reason : String} :
    IsNgLine u (ngLine u reason) ↔ '\n' ∉ u.ref.toList ∧ '\n' ∉ reason.toList := by
  constructor
  · rintro ⟨_, heq, href, hr⟩
    have hc := append_cancel_left (append_cancel_left heq)
    have ht := append_cancel_right (List.cons.inj hc).2
    exact ⟨href, ht ▸ hr⟩
  · exact fun h => ⟨reason, rfl, h⟩

theorem ngLines_iff : List.Forall₂ IsNgLine updates (updates.map (fun u => ngLine u (reasonFor rejections u.ref))) ↔
      ∀ u ∈ updates, '\n' ∉ u.ref.toList ∧ '\n' ∉ (reasonFor rejections u.ref).toList := by
  rw [forall₂_map_right_iff, forall₂_same]
  simp only [isNgLine_iff]

theorem pktLines_report (hf : ∀ line ∈ reportLines updates rejections, line.length + 9 ≤ maxPacket) :
    pktLines ((reportLines updates rejections).flatMap frame ++ flush) = some (reportLines updates rejections) :=
  pktLines_frames fun line hl => by
    have := hf line hl
    unfold maxPacket at this
    omega

theorem IsReport.lineFits
    (h : IsReport updates (writeReportStatusRejection updates rejections)) : ∀ u ∈ updates, LineFits rejections u := by
  obtain ⟨_, _, hd, hp, hng⟩ := h
  rw [writeReportStatusRejection_eq, demux_lines] at hd
  split at hd <;> cases hd
  rename_i hf
  rw [pktLines_report hf] at hp
  have hl := (List.cons.inj (Option.some.inj hp)).2
  rw [← hl] at hng
  intro u hu
  obtain ⟨href, hr⟩ := ngLines_iff.1 hng u hu
  exact ⟨href, hr, reportLines_fit_iff.1 hf u hu⟩

/-- **The report of a rejected push can be read exactly when every line fits**: no ref and no reason has a newline, and no
line is longer than a side-band packet may be. -/
theorem report_wellFormed_iff (updates : List RefUpdate) (rejections : List Rejection) :
    IsReport updates (writeReportStatusRejection updates rejections) ↔ ∀ u ∈ updates, LineFits rejections u := by
  refine ⟨IsReport.lineFits, fun h => ?_⟩
  have hf := reportLines_fit_iff.2 fun u hu => (h u hu).2.2
  refine ⟨_, _, ?_, pktLines_report hf, ngLines_iff.2 fun u hu => ⟨(h u hu).1, (h u hu).2.1⟩⟩
  rw [writeReportStatusRejection_eq, demux_lines, if_pos hf]

def twoLines : ValidateInput := ⟨headRepo, ⟨"s", "o", ""⟩, "a", [⟨"x\ny", "", "0101010101010101010101010101010101010101"⟩], 0, 0⟩

/-- **A ref with a newline breaks the report**: `validate` rejects the update, and its line is two. -/
theorem newline_breaks_report : ∃ rejections, validate silentLib noLimits twoLines = .ok rejections ∧ rejections ≠ [] ∧
    ¬ IsReport twoLines.updates (writeReportStatusRejection twoLines.updates rejections) := by
  have hv : ∃ r rs, validate silentLib noLimits twoLines = .ok (r :: rs) := ⟨_, _, rfl⟩
  obtain ⟨r, _, hr⟩ := hv
  refine ⟨_, hr, cons_ne_nil _ _, fun h => ?_⟩
  exact (h.lineFits _ mem_cons_self).1 (by decide)

end Jamsesh.Githttp
