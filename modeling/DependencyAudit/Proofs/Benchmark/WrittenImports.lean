import DependencyAudit.Benchmark.Project
import DependencyAudit.Proofs.Source.LongerTexts

/-!
# Written imports are found

A generated file imports its modules line by line, each in one of two forms.  The words
before the statement of a line start no statement, and what follows it starts none
either, so a scan of the lines finds the modules in order, whatever they are called and
whatever the forms.  The bytes that are written are read back as the text, which has no
carriage return.
-/

namespace DependencyAudit

/-! ## Bytes of a text -/

theorem toList_loop_eq (bytes : ByteArray) (position : Nat) (read : List UInt8) :
    ByteArray.toList.loop bytes position read =
      read.reverse ++ bytes.data.toList.drop position := by
  induction position, read using ByteArray.toList.loop.induct bytes with
  | case1 position read hinside ih =>
      have hlength : position < bytes.data.toList.length := by
        rw [Array.length_toList]
        exact hinside
      have hbyte : bytes.get! position = bytes.data.toList[position] := by
        rw [Array.getElem_toList]
        exact getElem!_pos bytes.data position hinside
      rw [ByteArray.toList.loop, if_pos hinside, ih, List.reverse_cons, hbyte,
        List.drop_eq_getElem_cons hlength, List.append_assoc, List.singleton_append]
  | case2 position read houtside =>
      have hlength : bytes.data.toList.length ≤ position := by
        rw [Array.length_toList]
        exact Nat.le_of_not_lt houtside
      rw [ByteArray.toList.loop, if_neg houtside, List.drop_eq_nil_of_le hlength,
        List.append_nil]

theorem Benchmark.bytesOf_eq_encode (text : String) : bytesOf text = Utf8.encode text.toList := by
  have hbytes : text.toByteArray = text.toList.utf8Encode := by
    rw [← String.toByteArray_ofList, String.ofList_toList]
  have hencode : (Utf8.encode text.toList).toByteArray.data.toList = Utf8.encode text.toList := by
    rw [List.data_toByteArray]
  rw [bytesOf, String.toUTF8, ByteArray.toList, toList_loop_eq, hbytes, List.reverse_nil,
    List.nil_append, List.drop_zero]
  exact hencode

/-! ## Lines -/

namespace Benchmark

open Source

theorem statement?_import (rest : List Char) :
    statement? ("import x ".toList ++ rest) = none := by
  have hnamed : namedStatement? ("import x ".toList ++ rest) = none := rfl
  have hrequired : requiredStatement? ("import x ".toList ++ rest) = none := rfl
  rw [statement?, hnamed, hrequired]
  rfl

theorem statement?_importEnd (rest : List Char) : statement? ("rt x ".toList ++ rest) = none := by
  have hnamed : namedStatement? ("rt x ".toList ++ rest) = none := rfl
  have hrequired : requiredStatement? ("rt x ".toList ++ rest) = none := rfl
  rw [statement?, hnamed, hrequired]
  rfl

theorem bodies_import_append (rest : List Char) :
    bodies ("import x ".toList ++ rest) = bodies rest := by
  calc
    bodies ("import x ".toList ++ rest) = bodies ("mpo".toList ++ ("rt x ".toList ++ rest)) :=
      bodies_cons_of_none (statement?_import rest)
    _ = bodies ("rt x ".toList ++ rest) := bodies_append_of_plain (by decide) _
    _ = bodies ("t x ".toList ++ rest) := bodies_cons_of_none (statement?_importEnd rest)
    _ = bodies rest := bodies_append_of_plain (by decide) _

variable {library : String}

theorem line_named (library : String) :
    ImportForm.named.line library = "import x from \"" ++ library ++ "\";\n" := rfl

theorem line_required (library : String) :
    ImportForm.required.line library = "const x = require('" ++ library ++ "');\n" := rfl

theorem toList_line (form : ImportForm) (library : String) :
    (form.line library).toList =
      match form with
      | .named => "import x ".toList ++
          ("from".toList ++ [' '] ++ '"' :: library.toList ++ ['"']) ++ ";\n".toList
      | .required => "const x = ".toList ++
          ("require".toList ++ [] ++ '(' :: '\'' :: library.toList ++ ['\'', ')']) ++
          ";\n".toList := by
  cases form with
  | named =>
      have hfront : "import x from \"".toList =
          "import x ".toList ++ "from".toList ++ [' ', '"'] := by
        decide
      have hlast : "\";\n".toList = '"' :: ";\n".toList := by decide
      rw [line_named, String.toList_append, String.toList_append, hfront, hlast]
      simp only [List.append_assoc, List.cons_append, List.nil_append]
  | required =>
      have hfront : "const x = require('".toList =
          "const x = ".toList ++ "require".toList ++ ['(', '\''] := by
        decide
      have hlast : "');\n".toList = '\'' :: ')' :: ";\n".toList := by decide
      rw [line_required, String.toList_append, String.toList_append, hfront, hlast]
      simp only [List.append_assoc, List.cons_append, List.nil_append]

theorem bodies_lineEnd_append (rest : List Char) :
    bodies (";\n".toList ++ rest) = bodies rest :=
  bodies_append_of_plain (by decide) rest

theorem bodies_const_append (rest : List Char) :
    bodies ("const x = ".toList ++ rest) = bodies rest :=
  bodies_append_of_plain (by decide) rest

theorem bodies_line (form : ImportForm) (h : IsBody library.toList) (rest : List Char) :
    bodies ((form.line library).toList ++ rest) = library.toList :: bodies rest := by
  rw [toList_line]
  cases form with
  | named =>
      have hblank : Text.isBlank ' ' = true := by decide
      have hstatement := Statement.named "from".toList [' '] library.toList '"' '"'
        (Or.inr rfl) (by simp) (by simpa using hblank) (by decide) h (by decide)
      simp only
      rw [List.append_assoc, List.append_assoc, bodies_import_append,
        bodies_of_statement? (statement?_eq_some_iff.mpr ⟨_, hstatement, rfl⟩),
        bodies_lineEnd_append]
  | required =>
      have hstatement := Statement.required [] library.toList '\'' '\'' (by simp) (by decide) h
        (by decide)
      simp only
      rw [List.append_assoc, List.append_assoc, bodies_const_append,
        bodies_of_statement? (statement?_eq_some_iff.mpr ⟨_, hstatement, rfl⟩),
        bodies_lineEnd_append]

/-- Import lines one after the other, each in a form of its own. -/
def linesOf (lines : List (ImportForm × String)) : String :=
  String.join (lines.map fun line => line.1.line line.2)

theorem linesOf_cons (line : ImportForm × String) (others : List (ImportForm × String)) :
    linesOf (line :: others) = line.1.line line.2 ++ linesOf others :=
  String.join_cons

/-- Nothing between two statements starts one, so the scan goes from line to line. -/
theorem bodies_linesOf {lines : List (ImportForm × String)}
    (h : ∀ line ∈ lines, IsBody line.2.toList) (rest : List Char) :
    bodies ((linesOf lines).toList ++ rest) =
      lines.map (fun line => line.2.toList) ++ bodies rest := by
  induction lines with
  | nil => simp [linesOf]
  | cons line others ih =>
      rw [List.forall_mem_cons] at h
      rw [linesOf_cons, String.toList_append, List.append_assoc, bodies_line _ h.1, ih h.2,
        List.map_cons, List.cons_append]

theorem importLines_eq_linesOf (draws : Draws) (imports : List String) :
    ∃ lines, lines.map Prod.snd = imports ∧ (importLines draws imports).1 = linesOf lines := by
  induction imports generalizing draws with
  | nil => exact ⟨[], rfl, rfl⟩
  | cons library others ih =>
      obtain ⟨lines, rfl, hlines⟩ := ih (importLine draws library).2
      refine ⟨(if draws.coin.1 then .named else .required, library) :: lines, rfl, ?_⟩
      rw [linesOf_cons, ← hlines]
      rfl

theorem bodies_importLines (draws : Draws) {imports : List String}
    (h : ∀ library ∈ imports, IsBody library.toList) (rest : List Char) :
    bodies ((importLines draws imports).1.toList ++ rest) =
      imports.map String.toList ++ bodies rest := by
  obtain ⟨lines, rfl, hlines⟩ := importLines_eq_linesOf draws imports
  rw [List.forall_mem_map] at h
  rw [hlines, bodies_linesOf h, List.map_map]
  rfl

theorem specifiers_linesOf_append {lines : List (ImportForm × String)} {rest : String}
    (hlines : ∀ line ∈ lines, IsBody line.2.toList)
    (hrest : ∀ c ∈ rest.toList, isQuote c = false) :
    specifiers (linesOf lines ++ rest) = lines.map Prod.snd := by
  have hstrings : (lines.map fun line => line.2.toList).map String.ofList =
      lines.map Prod.snd := by
    simp [List.map_map, Function.comp_def]
  rw [specifiers, String.toList_append, bodies_linesOf hlines, bodies_of_unquoted hrest,
    List.append_nil, hstrings]

/-- Import lines are read back: whatever modules they name, as long as each can stand between
quote marks, and whatever their forms, chosen or drawn, the specifiers are these modules in
their order.  What follows the lines may be anything without quote marks. -/
theorem specifiers_of_written_lines {lines : List (ImportForm × String)} {rest : String}
    (hlines : ∀ line ∈ lines, IsBody line.2.toList)
    (hrest : ∀ c ∈ rest.toList, isQuote c = false) :
    specifiers (linesOf lines ++ rest) = lines.map Prod.snd ∧
      ∀ draws, specifiers ((importLines draws (lines.map Prod.snd)).1 ++ rest) =
        lines.map Prod.snd := by
  refine ⟨specifiers_linesOf_append hlines hrest, fun draws => ?_⟩
  obtain ⟨drawn, hsame, htext⟩ := importLines_eq_linesOf draws (lines.map Prod.snd)
  have hdrawn : ∀ line ∈ drawn, IsBody line.2.toList := by
    intro line hline
    have hmem : line.2 ∈ lines.map Prod.snd := hsame ▸ List.mem_map_of_mem hline
    rcases List.mem_map.mp hmem with ⟨other, hother, heq⟩
    exact heq ▸ hlines other hother
  rw [htext, specifiers_linesOf_append hdrawn hrest, hsame]

/-- Modules that look like code themselves, some over several lines. -/
def codelikeLines : List (ImportForm × String) :=
  [(.named, "import x from require("), (.required, " ;\nimport\n"), (.named, "const y = from")]

theorem specifiers_of_codelike_lines :
    (∀ line ∈ codelikeLines, IsBody line.2.toList) ∧
      specifiers (linesOf codelikeLines ++ "\nfrom require(import\n") =
        ["import x from require(", " ;\nimport\n", "const y = from"] := by
  have hplain : ∀ line ∈ codelikeLines,
      line.2.toList ≠ [] ∧ line.2.toList.countP isQuote = 0 := by decide
  have hlines : ∀ line ∈ codelikeLines, IsBody line.2.toList := fun line hline =>
    ⟨(hplain line hline).1, unquoted_of_countP_isQuote (hplain line hline).2⟩
  have hrest : ∀ c ∈ "\nfrom require(import\n".toList, isQuote c = false :=
    unquoted_of_countP_isQuote (by decide)
  exact ⟨hlines, (specifiers_of_written_lines hlines hrest).1⟩

theorem carriageReturn_not_mem_line (form : ImportForm) (h : '\r' ∉ library.toList) :
    '\r' ∉ (form.line library).toList := by
  have hplain : ∀ text ∈ ["import x from \"", "\";\n", "const x = require('", "');\n"],
      '\r' ∉ text.toList := by decide
  cases form with
  | named =>
      rw [line_named, String.toList_append, String.toList_append, List.mem_append,
        List.mem_append, not_or, not_or]
      exact ⟨⟨hplain _ (by simp), h⟩, hplain _ (by simp)⟩
  | required =>
      rw [line_required, String.toList_append, String.toList_append, List.mem_append,
        List.mem_append, not_or, not_or]
      exact ⟨⟨hplain _ (by simp), h⟩, hplain _ (by simp)⟩

theorem carriageReturn_not_mem_importLines (draws : Draws) {imports : List String}
    (h : ∀ library ∈ imports, '\r' ∉ library.toList) :
    '\r' ∉ (importLines draws imports).1.toList := by
  induction imports generalizing draws with
  | nil => simp [importLines]
  | cons library others ih =>
      rw [List.forall_mem_cons] at h
      simp only [importLines, importLine]
      rw [String.toList_append, List.mem_append, not_or]
      exact ⟨carriageReturn_not_mem_line _ h.1, ih _ h.2⟩

/-! ## Generated files -/

theorem Draws.mem_of_mem_sample {α : Type} {draws : Draws} {items : List α} {count : Nat}
    {item : α} (h : item ∈ (draws.sample items count).1) : item ∈ items := by
  induction count generalizing draws items with
  | zero => simp [Draws.sample] at h
  | succ count ih =>
      simp only [Draws.sample, List.mem_append, Option.mem_toList] at h
      rcases h with h | h
      · exact List.mem_of_getElem? h
      · exact List.mem_of_mem_eraseIdx (ih h)

theorem isBody_library : ∀ library ∈ libraries, IsBody library.toList := by
  have hplain : ∀ library ∈ libraries, library.toList ≠ [] ∧
      library.toList.countP isQuote = 0 := by decide
  intro library hlibrary
  exact ⟨(hplain library hlibrary).1, unquoted_of_countP_isQuote (hplain library hlibrary).2⟩

theorem mem_libraries_of_mem_imports {draws : Draws} {index : Nat}
    (h : library ∈ (generateFile draws index).1.imports) : library ∈ libraries :=
  Draws.mem_of_mem_sample h

/-- A generated file imports what was drawn for it, in the order drawn. -/
theorem specifiers_generateFile (draws : Draws) (index : Nat) :
    specifiers (generateFile draws index).1.text = (generateFile draws index).1.imports := by
  have hbodies : ∀ library ∈ (generateFile draws index).1.imports, IsBody library.toList :=
    fun library hlibrary => isBody_library library (mem_libraries_of_mem_imports hlibrary)
  have hclosing : bodies closingLines.toList = [] :=
    bodies_of_unquoted (unquoted_of_countP_isQuote (by decide))
  have hstrings : ∀ imports : List String,
      (imports.map String.toList).map String.ofList = imports := by
    intro imports
    simp [List.map_map, Function.comp_def]
  generalize hfile : (generateFile draws index).1 = file at hbodies ⊢
  obtain ⟨lines, hlines⟩ :
      ∃ lines, file.text = (importLines lines file.imports).1 ++ closingLines :=
    ⟨_, by rw [← hfile]; rfl⟩
  rw [specifiers, hlines, String.toList_append, bodies_importLines _ hbodies, hclosing,
    List.append_nil, hstrings]

theorem carriageReturn_not_mem_text (draws : Draws) (index : Nat) :
    '\r' ∉ (generateFile draws index).1.text.toList := by
  have hplain : ∀ library ∈ libraries, '\r' ∉ library.toList := by decide
  have hclosing : '\r' ∉ closingLines.toList := by decide
  have hlines := carriageReturn_not_mem_importLines
    (((draws.choose? sourceSuffixes).2.upTo maxImports).2.sample libraries
      ((draws.choose? sourceSuffixes).2.upTo maxImports).1).2
    fun library (hlibrary : library ∈ (generateFile draws index).1.imports) =>
      hplain library (mem_libraries_of_mem_imports hlibrary)
  have htext : (generateFile draws index).1.text.toList =
      (importLines (((draws.choose? sourceSuffixes).2.upTo maxImports).2.sample libraries
        ((draws.choose? sourceSuffixes).2.upTo maxImports).1).2
        (generateFile draws index).1.imports).1.toList ++ closingLines.toList :=
    String.toList_append
  rw [htext, List.mem_append, not_or]
  exact ⟨hlines, hclosing⟩

end Benchmark

end DependencyAudit
