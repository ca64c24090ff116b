import Isa16.Proofs.Program
import Isa16.Proofs.Source.Normal
import Isa16.Proofs.Assembly.Emission
/-!
# Plain sources

A source of notes and instructions, without labels and macro calls, has nothing
to lay out: its lines are the laid out lines, no symbol is defined, and it is
assembled if each instruction can be read at its address
(`assemble_of_emits`). Otherwise the first one that cannot be read is reported
(`assemble_error_of_emits`).
-/

namespace Isa16.Assembly

open Isa16.Source (Statement IsNormal)

/-! ## Lines -/

/-- The line is no label and no macro call. -/
def IsPlain (line : List Char) : Prop := ∀ c ∈ (Text.code line).head?, c ≠ '%' ∧ c ≠ '.'

/-- The laid out line that a plain line is. -/
def plainLine (line : List Char) : Line :=
  match Text.code line with
  | [] => .note (String.ofList (Text.trim line))
  | _ => .written (String.ofList (Text.trim line))

theorem plainLine_of_note {line : List Char} (h : Text.code line = []) :
    plainLine line = .note (String.ofList (Text.trim line)) := by
  rw [plainLine, h]

theorem plainLine_of_code {line : List Char} (h : Text.code line ≠ []) :
    plainLine line = .written (String.ofList (Text.trim line)) := by
  unfold plainLine
  split
  · exact absurd ‹_› h
  · rfl

theorem plainLine_ne_label (line : List Char) (name : String) : plainLine line ≠ .label name := by
  unfold plainLine
  split <;> simp

theorem plainLine_width_of_note {line : List Char} (h : Text.code line = []) : (plainLine line).width = 0 := by
  rw [plainLine_of_note h]
  rfl

/-- A plain line reads as its code does; blanks and comments do not count. -/
theorem plainLine_reads {symbols : SymbolTable} {addr : Nat} {line : List Char} {i : Instruction}
    (hne : Text.code line ≠ []) (h : readInstruction symbols addr (Text.code line) = .ok i) :
    (plainLine line).Reads symbols addr i := by
  rw [plainLine_of_code hne, Line.Reads, String.toList_ofList, Text.code_trim, h]

/-- What a plain line says, and what it comes to. -/
theorem plainLine_expands {line : List Char} (h : IsPlain line) :
    ∃ s, Statement.read line = .ok s ∧ expand s = .ok [.line (plainLine line)] := by
  cases hc : Text.code line with
  | nil =>
    refine ⟨_, Statement.read_eq_ok_iff.2 (.note hc), ?_⟩
    rw [plainLine_of_note hc]
    rfl
  | cons c code =>
    obtain ⟨hp, hd⟩ := h c (by rw [hc]; rfl)
    refine ⟨_, Statement.read_eq_ok_iff.2 (.instruction hc hp hd), ?_⟩
    rw [plainLine_of_code (by rw [hc]; simp)]
    rfl

/-- A line in normal form without code. -/
structure IsNote (line : List Char) : Prop where
  isNormal : IsNormal line
  code_eq : Text.code line = []

theorem IsNote.isPlain {line : List Char} (h : IsNote line) : IsPlain line := fun c hc => by
  rw [h.code_eq] at hc
  cases hc

theorem isNote_nil : IsNote [] := ⟨⟨by simp, by simp, rfl⟩, rfl⟩

/-- A comment from the first character on is a note. -/
theorem isNote_of_comment {line : List Char} (h : Text.startsComment line) (hn : '\n' ∉ line) (hr : '\r' ∉ line) :
    IsNote line := by
  have hslash : '/' ∉ ([] : List Char) := List.not_mem_nil
  have hcut : Text.splitComment line = ([], line) := Source.splitComment_of_parts hslash (.inr h)
  refine ⟨Source.isNormal_of_parts hslash (.inr h) .nil hn hr, ?_⟩
  rw [Text.code, hcut]
  rfl

/-- The text has no line breaks. -/
def OneLine (s : String) : Prop := ∀ c ∈ s.toList, c ≠ '\n' ∧ c ≠ '\r'

-- Spelled out, as characters are finitely many and a search could try them all.
instance (s : String) : Decidable (OneLine s) := List.decidableBAll (fun c => c ≠ '\n' ∧ c ≠ '\r') s.toList

theorem OneLine.append {s t : String} (hs : OneLine s) (ht : OneLine t) : OneLine (s ++ t) := by
  intro c hc
  rw [String.toList_append, List.mem_append] at hc
  exact hc.elim (hs c) (ht c)

theorem oneLine_spaces (n : Nat) : OneLine (Text.spaces n) := by
  intro c hc
  rw [Text.spaces, String.toList_ofList, List.mem_replicate] at hc
  rw [hc.2]
  decide

theorem oneLine_digits (n : Nat) : OneLine (toString n) := by
  intro c hc
  have hlist : (toString n).toList = Nat.toDigits 10 n := Nat.toList_repr
  have hdigit := Text.isDigit_of_mem_toDigits (hlist ▸ hc)
  constructor <;> rintro rfl <;> exact absurd hdigit (by decide)

theorem oneLine_fixed (width n : Nat) : OneLine (String.ofList (Text.Hex.fixed Text.Hex.upperDigit width n)) := by
  have hall : ∀ d : Fin 16, Text.Hex.upperDigit d ≠ '\n' ∧ Text.Hex.upperDigit d ≠ '\r' := by decide
  intro c hc
  rw [String.toList_ofList] at hc
  obtain ⟨d, rfl⟩ := Text.Hex.mem_fixed hc
  exact hall d

theorem isNote_of_oneLine {s : String} (h : Text.startsComment s.toList) (hs : OneLine s) : IsNote s.toList :=
  isNote_of_comment h (fun hc => (hs _ hc).1 rfl) fun hc => (hs _ hc).2 rfl

/-- Notes come to no instruction. -/
theorem emits_notes {symbols : SymbolTable} {addr : Nat} {lines : List (List Char)} (h : ∀ line ∈ lines, IsNote line) :
    Emits symbols addr (lines.map plainLine) [] := by
  induction lines with
  | nil => exact .nil
  | cons line lines ih =>
    obtain ⟨hline, hlines⟩ := List.forall_mem_cons.1 h
    exact .silent (plainLine_width_of_note hline.code_eq) (ih hlines)

/-! ## Layout -/

/-- The laid out lines of plain lines, of which the first has the number `n`. -/
def plainFrom (n : Nat) (lines : List (List Char)) : List (Numbered Line) :=
  (lines.zipIdx n).map fun (line, k) => ⟨k, plainLine line⟩

@[simp] theorem plainFrom_cons (n : Nat) (line : List Char) (lines : List (List Char)) :
    plainFrom n (line :: lines) = ⟨n, plainLine line⟩ :: plainFrom (n + 1) lines := rfl

theorem plainFrom_append (n : Nat) (lines more : List (List Char)) :
    plainFrom n (lines ++ more) = plainFrom n lines ++ plainFrom (n + lines.length) more := by
  rw [plainFrom, List.zipIdx_append, List.map_append]
  rfl

theorem map_val_plainFrom (n : Nat) (lines : List (List Char)) :
    (plainFrom n lines).map (·.val) = lines.map plainLine := by
  induction lines generalizing n with
  | nil => rfl
  | cons line lines ih => rw [plainFrom_cons, List.map_cons, ih, List.map_cons]

theorem statements_of_plain {n : Nat} {lines : List (List Char)} (h : ∀ line ∈ lines, IsPlain line) :
    ∃ statements, readEach Statement.read ((lines.zipIdx n).map fun (line, k) => ⟨k, line⟩) = .ok statements ∧
      readEach expand statements = .ok ((plainFrom n lines).map fun x => ⟨x.line, [.line x.val]⟩) := by
  simp only [readEach_eq_ok_iff]
  induction lines generalizing n with
  | nil => exact ⟨[], .nil, .nil⟩
  | cons line lines ih =>
    obtain ⟨hline, hlines⟩ := List.forall_mem_cons.1 h
    obtain ⟨s, hs, he⟩ := plainLine_expands hline
    obtain ⟨statements, hss, hes⟩ := ih hlines
    exact ⟨⟨n, s⟩ :: statements, .cons ⟨rfl, hs⟩ hss, .cons ⟨rfl, he⟩ hes⟩

/-- A line that needs no address, as a logical line. -/
def lineItem (x : Numbered Line) : Numbered Item := ⟨x.line, .line x.val⟩

theorem itemsOf_plain {source : String}
    (h : ∀ line ∈ Text.lines (Source.normalizeText source.toList), IsPlain line) :
    itemsOf source = .ok ((plainFrom 1 (Text.lines (Source.normalizeText source.toList))).map lineItem) := by
  obtain ⟨statements, hs, he⟩ := statements_of_plain h
  refine bind_eq_ok_iff.2 ⟨statements, hs, bind_eq_ok_iff.2 ⟨_, he, ?_⟩⟩
  rw [List.flatMap_map, List.map_eq_flatMap]
  rfl

/-- Cells without labels bind nothing. -/
theorem bindCells_unlabelled {cells : List Cell} {start : Nat} (symbols : SymbolTable)
    (hl : ∀ c ∈ cells, ∀ name, c.item ≠ .line (.label name))
    (hw : start + (cells.map Cell.width).sum ≤ 65536) :
    (addressed Cell.width start cells).foldlM bindCell symbols = .ok symbols := by
  induction cells generalizing start with
  | nil =>
    rw [addressed_nil]
    rfl
  | cons c cells ih =>
    obtain ⟨hc, hl⟩ := List.forall_mem_cons.1 hl
    rw [List.map_cons, List.sum_cons] at hw
    have hfit : start + c.width ≤ 65536 := by omega
    rw [addressed_cons, List.foldlM_cons, bindCell_of_not_label hc hfit]
    exact ih hl (by omega)

/-- The cell of a line. -/
def lineCell (x : Numbered Line) : Cell := ⟨x.line, .line x.val, x.val.width⟩

/-- Every round finds the cells of lines as wide as they have to be. -/
theorem widened_lineCells (symbols : SymbolTable) (start : Nat) (lines : List (Numbered Line)) :
    List.Forall₂ (fun x c => widenCell symbols x = .ok c) (addressed Cell.width start (lines.map lineCell))
      (lines.map lineCell) := by
  induction lines generalizing start with
  | nil =>
    rw [List.map_nil, addressed_nil]
    exact .nil
  | cons x lines ih =>
    rw [List.map_cons, addressed_cons]
    exact .cons rfl (ih _)

/-- The cell of a line is laid out as the line. -/
theorem blocks_lineCells (symbols : SymbolTable) (start : Nat) (lines : List (Numbered Line)) :
    List.Forall₂ (LaysOut symbols) (addressed Cell.width start (lines.map lineCell)) (lines.map ([·])) := by
  induction lines generalizing start with
  | nil =>
    rw [List.map_nil, addressed_nil]
    exact .nil
  | cons x lines ih =>
    rw [List.map_cons, addressed_cons]
    exact .cons ⟨[x.val], rfl, rfl⟩ (ih _)

/-- Lines without labels are laid out as they are. -/
theorem layout_of_lines {lines : List (Numbered Line)} (hl : ∀ x ∈ lines, ∀ name, x.val ≠ .label name)
    (hw : (lines.map (·.val.width)).sum ≤ 65536) :
    Layout.ofItems (lines.map lineItem) = .ok ⟨lines, ∅⟩ := by
  have hbind : bindLabels (lines.map lineCell) = .ok ∅ := by
    refine bindCells_unlabelled ∅ (fun c hc name hn => ?_) ?_
    · obtain ⟨x, hx, rfl⟩ := List.mem_map.1 hc
      exact hl x hx name (Item.line.inj hn)
    · rw [List.map_map, Nat.zero_add]
      exact hw
  have hsettle : settle ((lines.map lineItem).map Cell.start) = .ok (∅, lines.map lineCell) := by
    rw [List.map_map]
    exact settle_of_rounds (.last (relax_eq_ok_iff.2 ⟨hbind, widened_lineCells ∅ 0 lines⟩))
  refine ofItems_eq_ok_iff.2 ⟨_, _, hsettle, blocks_lineCells ∅ 0 lines, ?_⟩
  rw [← List.flatMap_def, List.flatMap_singleton']

/-! ## Assembling -/

/-- What the code of a plain source is made from. -/
theorem layout_of_plain {source : String} {lines : List (List Char)}
    (hsource : source.toList = ['\n'].intercalate lines) (hn : ∀ line ∈ lines, IsNormal line)
    (hp : ∀ line ∈ lines, IsPlain line)
    (hw : ((lines.map plainLine).map Line.width).sum ≤ 65536) :
    ∃ items, itemsOf source = .ok items ∧
      Layout.ofItems items = .ok ⟨plainFrom 1 (Text.lines (['\n'].intercalate lines)), ∅⟩ := by
  have htext : Source.normalizeText source.toList = ['\n'].intercalate lines := by
    rw [hsource, Source.normalizeText_intercalate hn]
  obtain ⟨rest, -, hlines⟩ := Source.lines_intercalate hn
  rw [hlines] at hp
  refine ⟨_, itemsOf_plain (htext ▸ fun line hl => hp line (List.mem_append_left _ hl)), ?_⟩
  rw [htext]
  refine layout_of_lines (fun x hx name => ?_) ?_
  · obtain ⟨y, -, rfl⟩ := List.mem_map.1 hx
    exact plainLine_ne_label y.1 name
  · have hval := congrArg (List.map Line.width) (map_val_plainFrom 1 (Text.lines (['\n'].intercalate lines)))
    rw [List.map_map] at hval
    change ((plainFrom 1 _).map (Line.width ∘ _)).sum ≤ _
    rw [hlines, List.map_append, List.map_append, List.sum_append, ← hval] at hw
    exact Nat.le_trans (Nat.le_add_right ..) hw

/-- A plain source is assembled if its lines read as instructions, and to these instructions. -/
theorem assemble_of_emits {source : String} {lines : List (List Char)} {is : List Instruction}
    (hsource : source.toList = ['\n'].intercalate lines) (hn : ∀ line ∈ lines, IsNormal line)
    (hp : ∀ line ∈ lines, IsPlain line) (he : Emits ∅ 0 (lines.map plainLine) is) (hle : is.length ≤ 65536) :
    ∃ a, assemble source = .ok a ∧ a.symbols = ∅ ∧ a.program.words.toList = is.map (·.word) := by
  obtain ⟨items, hitems, hlayout⟩ := layout_of_plain hsource hn hp (he.length_eq ▸ hle)
  obtain ⟨rest, hrest, hlines⟩ := Source.lines_intercalate hn
  rw [hlines, List.map_append] at he
  obtain ⟨us, vs, rfl, hu, hv⟩ := he.split
  have hvs : vs = [] := by
    rw [← List.length_eq_zero_iff, hv.length_eq]
    rcases hrest with rfl | rfl <;> rfl
  rw [hvs, List.append_nil] at hle ⊢
  rw [← map_val_plainFrom 1] at hu
  obtain ⟨code, hcode, hinst⟩ := foldlM_of_emits (c := Code.empty) hu (by simpa [Code.empty, Code.size] using hle)
  refine ⟨⟨_, code⟩, assemble_eq_ok_iff.2 ⟨items, hitems, hlayout, hcode⟩, rfl, ?_⟩
  exact (Code.words_eq code).trans (congrArg (List.map Instruction.word) hinst)

/-- A line of a joined text that is not empty is among its lines. -/
theorem lines_of_line {pre post : List (List Char)} {line : List Char}
    (hn : ∀ l ∈ pre ++ line :: post, IsNormal l) (hne : line ≠ []) :
    ∃ behind, Text.lines (['\n'].intercalate (pre ++ line :: post)) = pre ++ line :: behind := by
  obtain ⟨rest, rfl | rfl, hlines⟩ := Source.lines_intercalate hn
  · exact ⟨post, by rw [List.append_nil] at hlines; exact hlines.symm⟩
  · obtain rfl | ⟨behind, last, hpost⟩ := List.eq_nil_or_concat post
    · exact absurd (List.cons.inj (List.append_inj_right' hlines rfl)).1 hne
    · rw [List.concat_eq_append] at hpost
      have hlast : (pre ++ line :: behind) ++ [last] = pre ++ line :: post := by
        rw [hpost, List.append_assoc, List.cons_append]
      exact ⟨behind, (List.append_inj_left' (hlast.trans hlines) rfl).symm⟩

/-- A plain source is refused at the first line that does not read as an instruction. -/
theorem assemble_error_of_emits {source : String} {pre post : List (List Char)} {line : List Char}
    {is : List Instruction} {cause : Cause} (hsource : source.toList = ['\n'].intercalate (pre ++ line :: post))
    (hn : ∀ l ∈ pre ++ line :: post, IsNormal l) (hp : ∀ l ∈ pre ++ line :: post, IsPlain l)
    (hw : (((pre ++ line :: post).map plainLine).map Line.width).sum ≤ 65536)
    (he : Emits ∅ 0 (pre.map plainLine) is) (hne : Text.code line ≠ [])
    (hread : readInstruction ∅ is.length (Text.code line) = .error cause) :
    assemble source = .error ⟨pre.length + 1, cause⟩ := by
  obtain ⟨items, hitems, hlayout⟩ := layout_of_plain hsource hn hp hw
  have hline : line ≠ [] := by
    rintro rfl
    exact hne rfl
  obtain ⟨behind, hbehind⟩ := lines_of_line hn hline
  have hwidth : (plainLine line).width = 1 := by
    rw [plainLine_of_code hne]
    rfl
  have hsplit : plainFrom 1 (Text.lines (['\n'].intercalate (pre ++ line :: post))) =
      plainFrom 1 pre ++ ⟨pre.length + 1, .written (String.ofList (Text.trim line))⟩ ::
        plainFrom (pre.length + 2) behind := by
    rw [hbehind, plainFrom_append, plainFrom_cons, plainLine_of_code hne, Nat.add_comm 1]
  have hlt : is.length < 65536 := by
    rw [he.length_eq]
    simp only [List.map_append, List.map_cons, List.sum_append, List.sum_cons, hwidth] at hw
    omega
  have hsize : Code.empty.size = 0 := rfl
  have hcode : (plainFrom 1 (Text.lines (['\n'].intercalate (pre ++ line :: post)))).foldlM
      (Code.appendLine ∅) Code.empty = .error ⟨pre.length + 1, cause⟩ := by
    rw [hsplit]
    refine foldlM_error ((map_val_plainFrom 1 pre).symm ▸ he) ?_ ?_
    · rwa [hsize, Nat.zero_add]
    · rw [hsize, Nat.zero_add, String.toList_ofList, Text.code_trim, hread]
  simp only [assemble, hitems, hlayout, Code.ofLayout, hcode, bind, Except.bind]

end Isa16.Assembly
