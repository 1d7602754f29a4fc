import Combinatory.CommandLine.Answer
import Combinatory.Proofs.Program.Acceptance
import Combinatory.Proofs.Session.History
import Combinatory.Proofs.Session.Report
import Combinatory.Proofs.Token.Findings

namespace Combinatory

def Line.complaint? : Line → Option Complaint
  | .complaint c => some c
  | _ => none

namespace Session

section Reading

theorem read_isOk_iff_accepted (text : String)
    : (∃ program, read text = .ok program) ↔ Token.Accepted (tokenize text).tokens.dropLast := by
  obtain ⟨body, last, htokens, hlast, hbody⟩ := exists_tokenize text
  rw [read, htokens, List.dropLast_concat]
  exact exists_parse_eq_ok_iff hlast hbody true

theorem exists_read_error_of_not_accepted {text : String}
    (h : ¬Token.Accepted (tokenize text).tokens.dropLast)
    : ∃ signal, read text = .error signal := by
  cases hread : read text with
  | error signal => exact ⟨signal, rfl⟩
  | ok program => exact absurd ((read_isOk_iff_accepted text).mp ⟨program, hread⟩) h

end Reading

section Lines

theorem complaint?_of_mem_preface {s : Session} {line : Line} (h : line ∈ s.preface)
    : line.complaint? = none :=
  List.filterMap_eq_nil_iff.mp (filterMap_preface (fun _ => rfl) rfl s) line h

theorem complaint?_of_mem_firings {quiet : Bool} {trace : List Reduction.Firing} {line : Line}
    (h : line ∈ firings quiet trace)
    : line.complaint? = none :=
  List.filterMap_eq_nil_iff.mp (filterMap_firings (fun _ _ _ => rfl) quiet trace) line h

def progress (quiet : Bool) (bound : String) (program : Program) (fuel : Nat) : List Line :=
  [.maximum bound, .start (render program.task), .blank]
    ++ firings quiet (program.reducer.reduce fuel).trace.toList ++ [.blank]

theorem report_of_finished {program : Program} {fuel : Nat} {result : List Term}
    (h : (program.reducer.reduce fuel).ending = .finished result) (quiet : Bool) (bound : String)
    : report quiet bound program fuel
        = progress quiet bound program fuel
          ++ [.count (program.reducer.reduce fuel).reducer.steps, .result (render result)] := by
  simp [report, progress, h, conclusion]

theorem complaint?_of_mem_progress {quiet : Bool} {bound : String} {program : Program} {fuel : Nat}
    {line : Line} (h : line ∈ progress quiet bound program fuel)
    : line.complaint? = none := by
  simp only [progress, List.mem_append, List.mem_cons, List.not_mem_nil, or_false] at h
  obtain ((rfl | rfl | rfl) | h) | rfl := h
  . rfl
  . rfl
  . rfl
  . exact complaint?_of_mem_firings h
  . rfl

def lexical (s : Session) : List Line :=
  s.preface ++ (tokenize s.source).messages.toList.map .message

def lexicalAndWarnings (s : Session) : List Line :=
  s.lexical ++ (warnings s.source).toList.map .message

end Lines

end Session

namespace CommandLine

open Session

section Ascii

def asciiBytes (text : List Char) : List UInt8 :=
  text.map fun c => UInt8.ofNat c.toNat

theorem decode_asciiBytes {text : List Char} (h : ∀ c ∈ text, c.toNat < 128)
    : Utf8.decode (asciiBytes text) = .ok text := by
  have hgo (offset : Nat) (acc : List Char)
      : Utf8.decode.go offset acc none (asciiBytes text) = .ok (acc.reverse ++ text) := by
    induction text generalizing offset acc with
    | nil => simp [asciiBytes, Utf8.decode.go]
    | cons c text ih =>
      rw [List.forall_mem_cons] at h
      have hbyte : (UInt8.ofNat c.toNat).toNat = c.toNat := by
        rw [UInt8.toNat_ofNat', Nat.mod_eq_of_lt (by omega)]
      have hsmall : UInt8.ofNat c.toNat < 0x80 := by
        rw [UInt8.lt_iff_toNat_lt, hbyte]
        exact h.1
      have hothers := ih h.2 (offset + 1) (c :: acc)
      rw [asciiBytes, List.map_cons, Utf8.decode.go, if_pos hsmall, hbyte, Char.ofNat_toNat]
      rw [asciiBytes] at hothers
      rw [hothers, List.reverse_cons, List.append_assoc, List.singleton_append]
  exact hgo 0 []

theorem normalise_of_forall {text : List Char} (h : ∀ c ∈ text, c ≠ '\r')
    : Newline.normalise text = text := by
  have hgo (acc : List Char) : Newline.normalise.go acc text = acc.reverse ++ text := by
    induction text generalizing acc with
    | nil => simp [Newline.normalise.go]
    | cons c text ih =>
      rw [List.forall_mem_cons] at h
      rw [Newline.normalise.go, ih h.2, List.reverse_cons, List.append_assoc,
        List.singleton_append]
      . rintro rest rfl
        exact absurd rfl h.1
      . rintro rfl
        exact absurd rfl h.1
  exact hgo []

end Ascii

section Answering

variable {files : Files} {options : Options} {bytes : List UInt8} {text : List Char}

def statusOfEnding : Session.Ending → Option Int
  | .finished _ => some 0
  | .held => some 0
  | .raised signal => some (statusOf (some signal))
  | .suspended => none

def sessionOf (options : Options) (text : List Char) : Session where
  source := String.ofList (Newline.normalise text)
  echoes := options.echoes

theorem answer_eq_of_file (hpath : options.file.contains '\x00' = false)
    (hfile : files options.file = some bytes) (hdecode : Utf8.decode bytes = .ok text)
    (program : String) (colored : Bool) (fuel : Nat)
    : answer program colored files (.run options) fuel
        = let o := ((sessionOf options text).run { quiet := options.quiet } fuel).guarded
          { status := statusOfEnding o.ending
            stdout := textOfLines colored o.console.printed.toList } := by
  have hopen : Session.open? files none (some options.file) options.echoes
      = .ok (sessionOf options text) := by
    simp [Session.open?, Session.load, hpath, hfile, hdecode, sessionOf]
  simp only [answer, runFile, hopen, runGuarded_eq_guarded]
  cases Outcome.ending (Outcome.guarded _) with
  | _ => rfl

theorem toList_printed_parsing_new (s : Session) (quiet : Bool)
    : (s.parsing { quiet }).printed.toList = s.lexical := by
  simp [toList_printed_parsing, lexical]

section Sessions

variable {s : Session} {p : Program}

theorem exists_complaint_of_not_accepted
    (h : ¬Token.Accepted (tokenize s.source).tokens.dropLast) (quiet : Bool)
    : ∃ t ∈ (tokenize s.source).tokens, ∃ fault, ∀ fuel,
        let o := (s.run { quiet } fuel).guarded
        statusOfEnding o.ending = some 1
          ∧ o.console.printed.toList
            = s.lexical ++ [.complaint { text := fault, position := some t.position }] := by
  obtain ⟨signal, hread⟩ := exists_read_error_of_not_accepted h
  obtain ⟨t, ht, fault, rfl⟩ := exists_token_of_read_error hread
  refine ⟨t, ht, fault, fun fuel => ?_⟩
  rw [run_eq_of_error hread, Outcome.guarded_of_complaint rfl]
  refine ⟨rfl, ?_⟩
  rw [Console.toList_printed_printAll, toList_printed_parsing_new]

theorem status_of_tooManyDigits (hread : read s.source = .ok p)
    (hbound : boundText? p.bound (some Numeral.maxDigits) = none) (quiet : Bool) (fuel : Nat)
    : statusOfEnding (s.run { quiet } fuel).guarded.ending = some 1 := by
  obtain ⟨_, hending⟩ := run_of_tooManyDigits hread hbound { quiet } fuel
  have hfatal : (s.run { quiet } fuel).console.fatal = true := by
    rw [run_eq_of_ok hread, perform_eq_of_eq_none hbound]
    rfl
  rw [Outcome.ending_guarded_of_defect hending, hfatal]
  rfl

theorem status_of_eq_some {bound : String} (hread : read s.source = .ok p)
    (hbound : boundText? p.bound (some Numeral.maxDigits) = some bound) (quiet : Bool) (fuel : Nat)
    : let reduced := p.reducer.reduce fuel
      let o := (s.run { quiet } fuel).guarded
      o.console.printed.toList = s.lexicalAndWarnings ++ report quiet bound p fuel
        ∧ ((∃ config, reduced.ending = .suspended config ∧ statusOfEnding o.ending = none)
          ∨ ∃ result, reduced.ending = .finished result ∧ statusOfEnding o.ending = some 0) := by
  have hsome : (boundText? p.bound (some Numeral.maxDigits)).isSome := by rw [hbound]; rfl
  obtain ⟨_, hending⟩ := run_of_ok (s := s) hread hsome { quiet } fuel
  obtain ⟨_, hlimit⟩ := Reducer.budget?_isOk (r := p.reducer) p.bound_isSome
  have hcases := Reducer.reduce_cases hlimit fuel
  have hguarded : (s.run { quiet } fuel).guarded = s.run { quiet } fuel := by
    apply Outcome.guarded_of_ne_raised
    obtain ⟨config, hconfig⟩ | ⟨result, hresult⟩ := hcases
    . simp [hending, hconfig, Ending.ofReduction]
    . simp [hending, hresult, Ending.ofReduction]
  dsimp only
  rw [hguarded]
  constructor
  . rw [run_eq_of_ok hread, perform_eq_of_eq_some hbound, Console.toList_printed_printAll,
      Console.toList_printed_flush, toList_printed_parsing_new]
    rfl
  . obtain ⟨config, hconfig⟩ | ⟨result, hresult⟩ := hcases
    . exact .inl ⟨config, hconfig, by rw [hending, hconfig]; rfl⟩
    . exact .inr ⟨result, hresult, by rw [hending, hresult]; rfl⟩

theorem exists_report_of_accepted (h : Token.Accepted (tokenize s.source).tokens.dropLast)
    (hfits : fits (some Numeral.maxDigits) s.source = true) (quiet : Bool)
    : ∃ p bound, read s.source = .ok p ∧ ∀ fuel,
        let reduced := p.reducer.reduce fuel
        let o := (s.run { quiet } fuel).guarded
        (∃ config, reduced.ending = .suspended config ∧ statusOfEnding o.ending = none)
          ∨ ∃ result, reduced.ending = .finished result ∧ statusOfEnding o.ending = some 0
            ∧ o.console.printed.toList
              = s.lexicalAndWarnings ++ progress quiet bound p fuel
                ++ [.count reduced.reducer.steps, .result (render result)] := by
  obtain ⟨p, hread⟩ := (read_isOk_iff_accepted s.source).mpr h
  rw [fits_of_ok hread] at hfits
  obtain ⟨bound, hbound⟩ := Option.isSome_iff_exists.mp hfits
  refine ⟨p, bound, hread, fun fuel => ?_⟩
  obtain ⟨hprinted, hsuspended | ⟨result, hresult, hstatus⟩⟩ :=
    status_of_eq_some hread hbound quiet fuel
  . exact .inl hsuspended
  . refine .inr ⟨result, hresult, hstatus, ?_⟩
    rw [hprinted, report_of_finished hresult, List.append_assoc]

theorem status_of_unfit (hfits : fits (some Numeral.maxDigits) s.source = false) (quiet : Bool)
    (fuel : Nat)
    : statusOfEnding (s.run { quiet } fuel).guarded.ending = some 1 := by
  cases hread : read s.source with
  | error signal => simp [fits_of_error hread] at hfits
  | ok p =>
    rw [fits_of_ok hread, Option.isSome_eq_false_iff, Option.isNone_iff_eq_none] at hfits
    exact status_of_tooManyDigits hread hfits quiet fuel

theorem complaint?_of_mem_lexicalAndWarnings {line : Line} (h : line ∈ s.lexicalAndWarnings)
    : line.complaint? = none := by
  simp only [lexicalAndWarnings, lexical, List.mem_append, List.mem_map] at h
  obtain (h | ⟨m, _, rfl⟩) | ⟨m, _, rfl⟩ := h
  . exact complaint?_of_mem_preface h
  . rfl
  . rfl

end Sessions

/--
What is answered for a file that can be read as text. If it is accepted, then the status is zero as
soon as there is one, and the report of the reduction is printed, without complaints, unless the
bound can not be printed: then the status is one. If the file is not accepted, the status is one,
and a complaint with a place in the text is printed behind the messages of the scanner. Like `run`,
this sets no limit to nesting and to what can be shown.
-/
theorem answer_of_file {arguments : List String}
    (hrequest : Request.ofArguments arguments = .run options)
    (hpath : options.file.contains '\x00' = false) (hfile : files options.file = some bytes)
    (hdecode : Utf8.decode bytes = .ok text) (program : String) (colored : Bool)
    : let s := sessionOf options text
      let accepted := Token.Accepted (tokenize s.source).tokens.dropLast
      let fits := fits (some Numeral.maxDigits) s.source
      let reply := answer program colored files (.ofArguments arguments)
      (fits = true → ∀ fuel status, (reply fuel).status = some status → (status = 0 ↔ accepted))
        ∧ (¬accepted → ∃ t ∈ (tokenize s.source).tokens, ∃ fault, ∀ fuel,
          reply fuel
            = { status := some 1
                stdout := textOfLines colored
                  (s.lexical ++ [.complaint { text := fault, position := some t.position }]) })
        ∧ (accepted → fits = true → ∃ p bound, read s.source = .ok p ∧ ∀ fuel,
          let reduced := p.reducer.reduce fuel
          let lines := s.lexicalAndWarnings ++ progress options.quiet bound p fuel
          (∀ line ∈ lines, line.complaint? = none)
            ∧ ((∃ config, reduced.ending = .suspended config ∧ (reply fuel).status = none)
              ∨ ∃ result, reduced.ending = .finished result ∧ reply fuel
                = { status := some 0
                    stdout := textOfLines colored
                      (lines ++ [.count reduced.reducer.steps, .result (render result)]) }))
        ∧ (accepted → fits = false → ∀ fuel, (reply fuel).status = some 1)
        ∧ (tokenize s.source).messages.toList.Pairwise fun m n =>
          ∃ p q, m.position = some p ∧ n.position = some q ∧ p.index < q.index := by
  intro s accepted fits reply
  have hreply (fuel : Nat)
      : reply fuel
        = { status := statusOfEnding (s.run { quiet := options.quiet } fuel).guarded.ending
            stdout := textOfLines colored
              (s.run { quiet := options.quiet } fuel).guarded.console.printed.toList } := by
    dsimp only [reply]
    rw [hrequest]
    exact answer_eq_of_file hpath hfile hdecode program colored fuel
  have hrejected (h : ¬accepted) := exists_complaint_of_not_accepted h options.quiet
  have haccepted (h : accepted) (hfits : fits = true) :=
    exists_report_of_accepted h hfits options.quiet
  refine ⟨?_, ?_, ?_, ?_, (pairwise_messages s.source).1⟩
  . intro hfits fuel status hstatus
    rw [hreply] at hstatus
    by_cases h : accepted
    . obtain ⟨p, _, _, hcases⟩ := haccepted h hfits
      obtain ⟨_, _, hnone⟩ | ⟨_, _, hzero, _⟩ := hcases fuel
      . simp [hnone] at hstatus
      . rw [hzero, Option.some_inj] at hstatus
        exact iff_of_true hstatus.symm h
    . obtain ⟨_, _, _, hfailed⟩ := hrejected h
      rw [(hfailed fuel).1, Option.some_inj] at hstatus
      exact iff_of_false (by omega) h
  . intro h
    obtain ⟨t, ht, fault, hfailed⟩ := hrejected h
    refine ⟨t, ht, fault, fun fuel => ?_⟩
    rw [hreply, (hfailed fuel).1, (hfailed fuel).2]
  . intro h hfits
    obtain ⟨p, bound, hread, hcases⟩ := haccepted h hfits
    refine ⟨p, bound, hread, fun fuel => ⟨?_, ?_⟩⟩
    . intro line hline
      obtain hline | hline := List.mem_append.mp hline
      . exact complaint?_of_mem_lexicalAndWarnings hline
      . exact complaint?_of_mem_progress hline
    . obtain ⟨config, hconfig, hnone⟩ | ⟨result, hresult, hzero, hprinted⟩ := hcases fuel
      . exact .inl ⟨config, hconfig, by rw [hreply, hnone]⟩
      . exact .inr ⟨result, hresult, by rw [hreply, hzero, hprinted]⟩
  . intro _ hfits fuel
    rw [hreply]
    exact status_of_unfit hfits options.quiet fuel

theorem answer_of_file_of_stray
    : let text := "quad?$KIS"
      let files : Files := fun _ => some (asciiBytes text.toList)
      let arguments := ["--lexemes", "-q", "p.ski"]
      (answer "skcalc" false files (.ofArguments arguments) 20).status = some 0
        ∧ Token.Accepted (tokenize text).tokens.dropLast := by
  intro text files arguments
  let options : Options := { file := "p.ski", echoes := true, quiet := true }
  have hrequest : Request.ofArguments arguments = .run options := by decide +kernel
  have hpath : options.file.contains '\x00' = false := by simp [options]
  have hascii : text.toList.all (·.toNat < 128) = true := by decide +kernel
  have hdecode : Utf8.decode (asciiBytes text.toList) = .ok text.toList :=
    decode_asciiBytes fun c hc => of_decide_eq_true (List.all_eq_true.mp hascii c hc)
  have hsource : (sessionOf options text.toList).source = text := by decide +kernel
  have hstatus : (answer "skcalc" false files (.ofArguments arguments) 20).status = some 0 := by
    rw [hrequest, answer_eq_of_file hpath rfl hdecode]
    decide +kernel
  have hfile : files options.file = some (asciiBytes text.toList) := rfl
  have hanswer := answer_of_file hrequest hpath hfile hdecode "skcalc" false
  dsimp only at hanswer
  rw [hsource] at hanswer
  exact ⟨hstatus, (hanswer.1 (by decide +kernel) 20 0 hstatus).mp rfl⟩

end Answering

section Overflow

theorem status_of_asciiBytes {text : String} {options : Options}
    (htext : ∀ c ∈ text.toList, c.toNat < 128 ∧ c ≠ '\r')
    (hpath : options.file.contains '\x00' = false)
    (hfits : fits (some Numeral.maxDigits) text = false) (program : String) (colored : Bool)
    (fuel : Nat)
    : let files : Files := fun _ => some (asciiBytes text.toList)
      (answer program colored files (.run options) fuel).status = some 1 := by
  have hdecode := decode_asciiBytes fun c hc => (htext c hc).1
  have hsource : (sessionOf options text.toList).source = text := by
    rw [sessionOf, normalise_of_forall fun c hc => (htext c hc).2, String.ofList_toList]
  intro files
  have hfile : files options.file = some (asciiBytes text.toList) := rfl
  rw [answer_eq_of_file hpath hfile hdecode]
  exact status_of_unfit (by rw [hsource, hfits]) options.quiet fuel

theorem accepted_and_unfit_of_read {text : String} {program : Program}
    (hread : read text = .ok program)
    (hbound : boundText? program.bound (some Numeral.maxDigits) = none)
    : Token.Accepted (tokenize text).tokens.dropLast
        ∧ fits (some Numeral.maxDigits) text = false := by
  constructor
  . exact (read_isOk_iff_accepted text).mp ⟨program, hread⟩
  . rw [fits_of_ok hread, hbound]
    rfl

theorem ascii_of_mem_textRepeated (n : Nat)
    : ∀ c ∈ (textRepeated n).toList, c.toNat < 128 ∧ c ≠ '\r' := by
  intro c hc
  simp only [textRepeated, String.toList_append, String.toList_ofList, List.mem_append] at hc
  obtain hc | hc := hc
  . have hhead : "exp?".toList.all (fun c => c.toNat < 128 ∧ c ≠ '\r') = true := by
      decide +kernel
    exact of_decide_eq_true (List.all_eq_true.mp hhead c hc)
  . rw [List.eq_of_mem_replicate hc]
    decide

theorem exists_accepted_status_one
    : let files : Files := fun _ => some (asciiBytes (textRepeated 14283).toList)
      (answer "skcalc" false files (.ofArguments ["-q", "p.ski"]) 0).status = some 1
        ∧ Token.Accepted (tokenize (textRepeated 14283)).tokens.dropLast := by
  obtain ⟨program, hread, hcomplexity, hprimitives⟩ := exists_read_textRepeated 14283
  have hbound := boundText?_eq_none_of_le hcomplexity (pow_maxDigits_le hprimitives)
  obtain ⟨haccepted, hunfit⟩ := accepted_and_unfit_of_read hread hbound
  let options : Options := { file := "p.ski", quiet := true }
  have hrequest : Request.ofArguments ["-q", "p.ski"] = .run options := by decide +kernel
  have hpath : options.file.contains '\x00' = false := by simp [options]
  have hstatus :=
    status_of_asciiBytes (ascii_of_mem_textRepeated 14283) hpath hunfit "skcalc" false 0
  intro files
  rw [hrequest]
  exact ⟨hstatus, haccepted⟩

end Overflow

end CommandLine

end Combinatory
