import Isa16.Assembly.Printer
import Isa16.Tool.Assemble
import Isa16.Tool.Disassemble
import Isa16.Tool.Run
import Isa16.Proofs.Memory.Image
import Isa16.Proofs.Assembly.Consistent
import Isa16.Proofs.Assembly.Layout
/-!
# Every form of the code loads as the program

The code of a source is written as bare words or as a listing, and is read as
bare words, as a listing or as a data image. The lines of a listing are
comments, a cursor and words (`lines_listing`), whatever the labels are, so the
three readers find the words of the program in it and nothing else
(`loadsBack_of_assemble`).
-/

namespace Isa16

/-! ## Joined lines -/

namespace Text

section

variable {xs : List (List Char)} (h : ∀ line ∈ xs, '\n' ∉ line) (hne : xs ≠ [])

include h hne

/-- Lines of which the last is not empty are the lines of the joined text. -/
theorem lines_joined (hlast : xs.getLast? ≠ some []) : lines (['\n'].intercalate xs) = xs := by
  simp only [lines, List.splitOn_intercalate '\n' h hne, if_neg hlast]

/-- With a newline behind the last of them, it does not matter what that is. -/
theorem lines_joined_newline : lines (['\n'].intercalate xs ++ ['\n']) = xs := by
  rw [lines_append_newline, List.splitOn_intercalate '\n' h hne]
  exact List.append_nil xs

end

namespace Hex

/-- Words on lines of their own are read, whatever was begun in front of them. -/
theorem groups_of_lines (ws : List UInt16) (s : Scan) :
    ((ws.flatMap fun w => '\n' :: fixed upperDigit 4 w.toNat).foldl (Scan.next 4) s).groups =
      s.groups ++ (ws.map UInt16.toNat).toArray := by
  induction ws generalizing s with
  | nil => simp
  | cons w ws ih =>
    have hnewline : Scan.next 4 s '\n' = ⟨s.groups, 0, 0⟩ := rfl
    rw [List.flatMap_cons, List.cons_append, List.foldl_cons, hnewline, List.foldl_append, foldl_next_word, ih]
    simp

end Hex

end Text

namespace Assembly

/-! ## The lines of a listing -/

/-- The digits of a word. -/
def wordLine (w : UInt16) : List Char := Text.Hex.fixed Text.Hex.upperDigit 4 w.toNat

/-- The comments that a listing begins with. -/
def remarks (a : Assembly) : List (List Char) :=
  ("// Assembled with sc16-asm" :: symbolLines a.symbols).map String.toList

/-- The lines of a listing. -/
def listingLines (a : Assembly) : List (List Char) :=
  a.remarks ++ ['@', '0'] :: a.program.words.toList.map wordLine

theorem toList_listing (a : Assembly) : a.listing.toList = ['\n'].intercalate a.listingLines := by
  have hwords : a.program.words.toList.map (String.toList ∘ Text.Hex.word) = a.program.words.toList.map wordLine :=
    List.map_congr_left fun w _ => Text.Hex.toList_word w
  rw [listing, String.toList_intercalate, List.map_append, List.map_cons (f := String.toList) (a := "@0"), List.map_map,
    hwords]
  rfl

theorem wordLine_spec (w : UInt16) : '\n' ∉ wordLine w ∧ wordLine w ≠ [] ∧
    Text.startsComment (Text.trimStart (wordLine w)) = false := by
  have hall : ∀ d : Fin 16, '\n' ≠ Text.Hex.upperDigit d ∧ Text.isBlank (Text.Hex.upperDigit d) = false ∧
      Text.Hex.upperDigit d ≠ '/' := by decide
  refine ⟨fun h => ?_, ?_, ?_⟩
  · obtain ⟨d, hd⟩ := Text.Hex.mem_fixed h
    exact (hall d).1 hd
  · rw [← List.length_pos_iff, wordLine, Text.Hex.length_fixed]
    decide
  · cases hline : wordLine w with
    | nil => rfl
    | cons c rest =>
      have hmem : c ∈ Text.Hex.fixed Text.Hex.upperDigit 4 w.toNat := by
        rw [← wordLine, hline]
        exact List.mem_cons_self
      obtain ⟨d, rfl⟩ := Text.Hex.mem_fixed hmem
      obtain ⟨-, hblank, hslash⟩ := hall d
      rw [Text.trimStart_cons_of_not_blank hblank, Bool.eq_false_iff]
      intro hs
      obtain ⟨_, hs⟩ := Text.startsComment_iff.1 hs
      exact hslash (List.cons.inj hs).1

theorem oneLine_symbolLine (index : Nat) {name : String} (h : Source.isName name.toList) (addr : UInt16) :
    OneLine (symbolLine index name addr) := by
  have hfront : OneLine ("//  " ++ Text.padStart 3 (toString index)) :=
    OneLine.append (by decide) (OneLine.append (oneLine_spaces _) (oneLine_digits index))
  exact (((hfront.append (by decide)).append (oneLine_name h)).append (by decide)).append (oneLine_fixed 4 _)

section

variable {a : Assembly} (hnames : ∀ name, name ∈ a.symbols → Source.isName name.toList)

include hnames

/-- The comments of a listing are comments, one a line. -/
theorem remarks_spec : ∀ line ∈ a.remarks, Text.startsComment line ∧ '\n' ∉ line := by
  have hone {s : String} (hs : Text.startsComment s.toList) (h : OneLine s) :
      Text.startsComment s.toList ∧ '\n' ∉ s.toList := ⟨hs, fun hc => (h _ hc).1 rfl⟩
  intro line hline
  obtain ⟨s, hs, rfl⟩ := List.mem_map.1 hline
  rcases List.mem_cons.1 hs with rfl | hs
  · exact hone (by decide) (by decide)
  unfold symbolLines at hs
  split at hs
  · obtain rfl := List.mem_singleton.1 hs
    exact hone (by decide) (by decide)
  · rcases List.mem_cons.1 hs with rfl | hs
    · exact hone (by decide) (by decide)
    · obtain ⟨index, hlt, hs⟩ := List.mem_mapIdx.1 hs
      have hmem : a.symbols.toList[index] ∈ a.symbols.toList := List.getElem_mem hlt
      generalize a.symbols.toList[index] = entry at hmem hs
      obtain ⟨name, addr⟩ := entry
      have hname : name ∈ a.symbols := by
        rw [Std.TreeMap.mem_iff_isSome_getElem?, Std.TreeMap.mem_toList_iff_getElem?_eq_some.1 hmem]
        rfl
      subst hs
      refine hone ?_ (oneLine_symbolLine index (hnames _ hname) addr)
      simp only [symbolLine, String.toList_append, List.append_assoc]
      rfl

/-- The lines of a listing, whether or not a newline ends the last of them. -/
theorem lines_listing : Text.lines a.listing.toList = a.listingLines ∧
    Text.lines (a.listing ++ "\n").toList = a.listingLines := by
  have hline : ∀ line ∈ a.listingLines, '\n' ∉ line := by
    intro line hline
    rcases List.mem_append.1 hline with hline | hline
    · exact (remarks_spec hnames line hline).2
    · rcases List.mem_cons.1 hline with rfl | hline
      · decide
      · obtain ⟨w, -, rfl⟩ := List.mem_map.1 hline
        exact (wordLine_spec w).1
  have hne : a.listingLines ≠ [] := by simp [listingLines]
  have hlast : a.listingLines.getLast? ≠ some [] := by
    have hmem : ∀ line ∈ ['@', '0'] :: a.program.words.toList.map wordLine, line ≠ [] := by
      rintro line (_ | ⟨_, hline⟩)
      · simp
      · obtain ⟨w, -, rfl⟩ := List.mem_map.1 hline
        exact (wordLine_spec w).2.1
    rw [listingLines, List.getLast?_append_of_ne_nil _ (by simp)]
    exact fun h => hmem [] (List.mem_of_getLast? h) rfl
  rw [String.toList_append, toList_listing]
  exact ⟨Text.lines_joined hline hne hlast, Text.lines_joined_newline hline hne⟩

/-! ## Readers -/

/-- The lines of a listing are read as its program. -/
theorem ofListing_of_lines {text : String} (h : Text.lines text.toList = a.listingLines) :
    Program.ofListing text = a.program := by
  have hremarks : a.remarks.filter (fun line => ! Text.startsComment (Text.trimStart line)) = [] := by
    refine List.filter_eq_nil_iff.2 fun line hline => ?_
    obtain ⟨rest, rfl⟩ := Text.startsComment_iff.1 (remarks_spec hnames line hline).1
    rw [Text.trimStart_cons_of_not_blank (by decide)]
    simp [Text.startsComment, List.isPrefixOf]
  have hwords : (['@', '0'] :: a.program.words.toList.map wordLine).filter
      (fun line => ! Text.startsComment (Text.trimStart line)) = ['@', '0'] :: a.program.words.toList.map wordLine := by
    refine List.filter_eq_self.2 ?_
    rintro line (_ | ⟨_, hline⟩)
    · decide
    · obtain ⟨w, -, rfl⟩ := List.mem_map.1 hline
      rw [(wordLine_spec w).2.2]
      rfl
  have hkept : (Text.lines text.toList).filter (fun line => ! Text.startsComment (Text.trimStart line)) =
      ['@', '0'] :: a.program.words.toList.map wordLine := by
    rw [h, listingLines, List.filter_append, hremarks, hwords, List.nil_append]
  rw [Program.ofListing, hkept]
  apply Program.ofHex_of_groups
  rw [String.toList_ofList, Text.intercalate_newline, List.flatMap_map, Text.Hex.groups, List.foldl_append]
  refine (Text.Hex.groups_of_lines a.program.words.toList _).trans ?_
  rw [← Array.toList_map, Array.toArray_toList]
  exact Array.empty_append

/-- As a data image they have the words of the program, and zeros behind them. -/
theorem ofImage_of_lines {text : String} (h : Text.lines text.toList = a.listingLines) :
    ∃ m, DataMemory.ofImage text = .ok m ∧ ∀ addr, m.word addr = (a.program.fetch addr).getD 0 := by
  have hremarks : ∀ l ∈ a.remarks.map ImageLine.read, l = .nothing := by
    intro l hl
    obtain ⟨line, hline, rfl⟩ := List.mem_map.1 hl
    exact ImageLine.read_of_comment (remarks_spec hnames line hline).1
  have hcursor : ImageLine.read ['@', '0'] = .seek 0 := by decide
  have hwords : (a.program.words.toList.map wordLine).map ImageLine.read = a.program.words.toList.map .store := by
    rw [List.map_map]
    exact List.map_congr_left fun w _ => ImageLine.read_word w
  have hlines : (Text.lines text.toList).map ImageLine.read =
      a.remarks.map ImageLine.read ++ .seek 0 :: a.program.words.toList.map .store := by
    rw [h, listingLines, List.map_append, List.map_cons, hcursor, hwords]
  have hfit : (0 : UInt16).toNat + a.program.words.toList.length ≤ 65536 := by
    rw [Array.length_toList]
    simpa using a.program.size_le
  obtain ⟨m, hm, hword⟩ := DataMemory.empty.follow_words (1 + (a.remarks.map ImageLine.read).length + 1) hfit
  refine ⟨m, ?_, fun addr => ?_⟩
  · rw [DataMemory.ofImage, DataMemory.loadImage, DataMemory.clear_eq_empty, hlines,
      DataMemory.follow_nothing _ _ _ hremarks, DataMemory.follow, hm]
  · rw [hword, if_pos (by simp), DataMemory.word_empty]
    simp [Program.fetch]

end

/-! ## Files -/

/-- What the assembler writes to its output: the words, or the listing. -/
def codeFile (a : Assembly) (listing : Bool) : String := if listing then a.listing ++ "\n" else a.hex

end Assembly

open Tool in
/-- Whatever is written of the code of a source, it is read as the program of the source. -/
structure Assembly.LoadsBack (source : String) (a : Assembly) : Prop where
  ofHex_hex : Program.ofHex a.hex = a.program
  ofListing_hex : Program.ofListing a.hex = a.program
  ofListing_listing : Program.ofListing a.listing = a.program
  ofListing_listing_newline : Program.ofListing (a.listing ++ "\n") = a.program
  toHex_program : a.program.toHex = a.hex
  ofImage_listing : ∃ m, DataMemory.ofImage a.listing = .ok m ∧ ∀ addr, m.word addr = (a.program.fetch addr).getD 0
  /-- The first file that the assembler writes has the code. -/
  written : ∀ (o : AssembleOptions) (files : Files), files o.input = .ok source →
    ∃ rest, assembleFile o files = { writes := (o.output, a.codeFile o.listing) :: rest }
  /-- A file with the code runs as the source does. -/
  run_eq : ∀ (listing : Bool) (o : RunOptions) (path : String) (files : Files), files o.program = .ok source →
    files path = .ok (a.codeFile listing) →
      run { o with program := path, source := false } files = run { o with source := true } files
  /-- A file with the code is disassembled as the program, unless that is empty. -/
  loadProgram_eq : ∀ (listing : Bool) (path : String) (files : Files), files path = .ok (a.codeFile listing) →
    loadProgram files path =
      if a.program.size = 0 then .error ⟨path ++ ": no program words found", none⟩ else .ok a.program
  disassemble_eq : ∀ listing, disassemble (a.codeFile listing) = a.program.disassemble.text

open Assembly in
/-- All forms of the code of an assembled source load as its program. -/
theorem loadsBack_of_assemble {source : String} {a : Assembly} (h : assemble source = .ok a) :
    a.LoadsBack source := by
  have hnames : ∀ name, name ∈ a.symbols → Source.isName name.toList := by
    intro name hname
    obtain ⟨n, code, -, hlabel⟩ := (mem_symbols_iff h name).1 hname
    exact isName_of_labelName? hlabel
  obtain ⟨hlines, hlines'⟩ := lines_listing hnames
  have hlisting := ofListing_of_lines hnames hlines
  have hlisting' := ofListing_of_lines hnames hlines'
  have hfile : ∀ listing, Program.ofListing (a.codeFile listing) = a.program
    | true => hlisting'
    | false => a.program.ofListing_toHex
  refine ⟨a.program.ofHex_toHex, a.program.ofListing_toHex, hlisting, hlisting', rfl, ofImage_of_lines hnames hlines,
    fun o files hsource => ?_, fun listing o path files hsource hcode => ?_, fun listing path files hcode => ?_,
    fun listing => ?_⟩
  · simp only [Tool.assembleFile, Tool.readSource, hsource, bind, Except.bind, h]
    exact ⟨_, rfl⟩
  · have hread : Tool.RunOptions.readProgram { o with program := path, source := false } files =
        Tool.RunOptions.readProgram { o with source := true } files := by
      simp only [Tool.RunOptions.readProgram, Tool.readSource, hsource, hcode, bind, Except.bind, h]
      exact congrArg Except.ok (hfile listing)
    simp only [Tool.run, hread]
    rfl
  · simp only [Tool.loadProgram, Tool.readSource, hcode, bind, Except.bind, hfile]
    rfl
  · rw [disassemble, hfile]

/-- A source with a label that is a hexadecimal number. -/
theorem loadsBack_of_hexadecimal_label :
    ∃ a, assemble ".BEEF0123:\nldi r1,5\n%SLDI r2,.BEEF0123\njmp r2" = .ok a ∧
      a.LoadsBack ".BEEF0123:\nldi r1,5\n%SLDI r2,.BEEF0123\njmp r2" := by
  obtain ⟨a, ha, -⟩ := exists_ok_of_any
    (x := assemble ".BEEF0123:\nldi r1,5\n%SLDI r2,.BEEF0123\njmp r2") (p := fun _ => true) (by decide +kernel)
  exact ⟨a, ha, loadsBack_of_assemble ha⟩

end Isa16
