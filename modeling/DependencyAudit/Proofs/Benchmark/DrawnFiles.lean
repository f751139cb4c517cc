import DependencyAudit.Proofs.Benchmark.FileNames
import DependencyAudit.Proofs.Benchmark.WrittenImports

/-!
# Which draws make a file

All choices take their numbers from one stream.  A file takes one number for its suffix
and one for how many modules it imports, then one for each module of the sample, and one
for the form of each line.  So the number of draws before a file depends on the draws
themselves, but every choice can be told from the stream by its place there.
-/

namespace DependencyAudit.Benchmark

namespace Draws

variable {α : Type} {stream : Nat → Nat} {first count : Nat} {items sample : List α}

/-- The draws that are left after some more of them. -/
def skip (draws : Draws) (count : Nat) : Draws :=
  { draws with taken := draws.taken + count }

@[simp] theorem stream_skip (draws : Draws) (count : Nat) :
    (draws.skip count).stream = draws.stream := rfl

@[simp] theorem taken_skip (draws : Draws) (count : Nat) :
    (draws.skip count).taken = draws.taken + count := rfl

theorem skip_skip (draws : Draws) (first second : Nat) :
    (draws.skip first).skip second = draws.skip (first + second) := by
  rw [skip, skip, skip, Nat.add_assoc]

theorem snd_sample (draws : Draws) (items : List α) (count : Nat) :
    (draws.sample items count).2 = draws.skip count := by
  induction count generalizing draws items with
  | zero => rfl
  | succ count ih =>
      have hnext : draws.next.2 = draws.skip 1 := rfl
      simp only [Draws.sample, ih, hnext, skip_skip, Nat.add_comm 1 count]

/-! ## Samples -/

/-- A sample is drawn in order and without replacement: at each place stands that item,
of those not drawn before, which the next number of the stream picks. -/
def IsSample [DecidableEq α] (stream : Nat → Nat) (first : Nat) (items sample : List α) : Prop :=
  ∀ place item, sample[place]? = some item →
    let left := items.filter fun other => other ∉ sample.take place
    left[stream (first + place) % left.length]? = some item

theorem fst_sample_succ (draws : Draws)
    (hplace : draws.next.1 % items.length < items.length) :
    (draws.sample items (count + 1)).1 = items[draws.next.1 % items.length] ::
      ((draws.skip 1).sample (items.eraseIdx (draws.next.1 % items.length)) count).1 := by
  have hnext : draws.next.2 = draws.skip 1 := rfl
  simp only [Draws.sample, hnext, List.getElem?_eq_getElem hplace, Option.toList_some,
    List.singleton_append]

variable [DecidableEq α]

theorem filter_eraseIdx (hdistinct : items.Nodup) {place : Nat} (hplace : place < items.length)
    (drawn : List α) :
    (items.eraseIdx place).filter (fun other => other ∉ drawn) =
      items.filter fun other => other ∉ items[place] :: drawn := by
  rw [← hdistinct.erase_getElem place hplace, hdistinct.erase_eq_filter, List.filter_filter]
  apply List.filter_congr
  intro other _
  rw [Bool.eq_iff_iff]
  simp [and_comm]

theorem isSample_sample (draws : Draws) (hdistinct : items.Nodup) (hcount : count ≤ items.length) :
    IsSample draws.stream draws.taken items (draws.sample items count).1 := by
  induction count generalizing draws items with
  | zero => simp [IsSample, Draws.sample]
  | succ count ih =>
      have hplace : draws.next.1 % items.length < items.length := Nat.mod_lt _ (by omega)
      have hlength : count ≤ (items.eraseIdx (draws.next.1 % items.length)).length := by
        rw [List.length_eraseIdx_of_lt hplace]
        omega
      have hrest := ih (draws.skip 1) (hdistinct.eraseIdx _) hlength
      rw [fst_sample_succ draws hplace]
      rintro (_ | place) item hitem
      · have hall : (items.filter fun other => other ∉ ([] : List α)) = items := by simp
        rw [List.getElem?_cons_zero] at hitem
        rw [List.take_zero, hall, Nat.add_zero, ← hitem]
        exact List.getElem?_eq_getElem hplace
      · -- What the first item leaves of the list is what the filter leaves without it.
        rw [List.getElem?_cons_succ] at hitem
        have hdrawn := hrest place item hitem
        rw [filter_eraseIdx hdistinct hplace, stream_skip, taken_skip, Nat.add_assoc,
          Nat.add_comm 1 place] at hdrawn
        exact hdrawn

theorem IsSample.mem_left (h : IsSample stream first items sample) {place : Nat} {item : α}
    (hitem : sample[place]? = some item) : item ∈ items ∧ item ∉ sample.take place := by
  have hmem := List.mem_of_getElem? (h place item hitem)
  rwa [List.mem_filter, decide_eq_true_eq] at hmem

theorem IsSample.subset (h : IsSample stream first items sample) : sample ⊆ items := by
  intro item hitem
  obtain ⟨place, hplace⟩ := List.mem_iff_getElem?.mp hitem
  exact (h.mem_left hplace).1

theorem IsSample.nodup (h : IsSample stream first items sample) : sample.Nodup := by
  rw [List.nodup_iff_getElem?_ne_getElem?]
  intro earlier later hearlier hlater heq
  have hdrawn : sample[later]? = some sample[later] := List.getElem?_eq_getElem hlater
  refine (h.mem_left hdrawn).2 (List.mem_of_getElem? (i := earlier) ?_)
  rw [List.getElem?_take_of_lt hearlier, heq, hdrawn]

end Draws

/-! ## Files -/

variable {stream : Nat → Nat} {first index : Nat} {file : GeneratedFile}

/-- How many modules a file imports whose draws begin at a place of the stream. -/
def importCount (stream : Nat → Nat) (first : Nat) : Nat :=
  1 + stream (first + 1) % maxImports

/-- The form of the line that a number of the stream decides. -/
def drawnForm (number : Nat) : ImportForm :=
  if number % 1000 < 500 then .named else .required

/-- The lines of a sample, the forms of which are drawn from a place of the stream on. -/
def drawnLines (stream : Nat → Nat) (first : Nat) (imports : List String) : List String :=
  imports.mapIdx fun place library => (drawnForm (stream (first + place))).line library

/-- A file is what the stream gives from a place on: its suffix, the number of its
imports, the imports, and the forms of their lines. -/
structure IsDrawnFrom (stream : Nat → Nat) (first index : Nat) (file : GeneratedFile) : Prop where
  name : ∃ suffix, sourceSuffixes[stream first % sourceSuffixes.length]? = some suffix ∧
    file.name = fileName index suffix
  length_imports : file.imports.length = importCount stream first
  imports : Draws.IsSample stream (first + 2) libraries file.imports
  text : file.text =
    String.join (drawnLines stream (first + 2 + importCount stream first) file.imports) ++
      closingLines

theorem importCount_pos (stream : Nat → Nat) (first : Nat) : 1 ≤ importCount stream first := by
  rw [importCount]
  omega

theorem importCount_le (stream : Nat → Nat) (first : Nat) : importCount stream first ≤ 10 := by
  rw [importCount, maxImports]
  omega

theorem importLines_eq (draws : Draws) (imports : List String) :
    importLines draws imports =
      (String.join (drawnLines draws.stream draws.taken imports), draws.skip imports.length) := by
  induction imports generalizing draws with
  | nil => rfl
  | cons library others ih =>
      have hcoin : (importLine draws library).2 = draws.skip 1 := rfl
      have hline : (importLine draws library).1 =
          (drawnForm (draws.stream draws.taken)).line library := by
        by_cases hnamed : draws.stream draws.taken % 1000 < 500
        · simp [importLine, Draws.coin, Draws.next, drawnForm, hnamed]
        · simp [importLine, Draws.coin, Draws.next, drawnForm, hnamed]
      simp only [importLines, hcoin, ih, hline, Draws.skip_skip, List.length_cons,
        Nat.add_comm 1 others.length]
      rw [drawnLines, drawnLines, List.mapIdx_cons]
      simp [Nat.add_assoc, Nat.add_comm 1]

/-- Making a file takes two numbers, and two more for each of its imports. -/
theorem isDrawnFrom_generateFile (draws : Draws) (index : Nat) :
    IsDrawnFrom draws.stream draws.taken index (generateFile draws index).1 ∧
      (generateFile draws index).2 =
        draws.skip (2 + 2 * importCount draws.stream draws.taken) := by
  have hsome := draws.choose?_isSome (by decide : sourceSuffixes ≠ [])
  obtain ⟨suffix, hsuffix⟩ := Option.isSome_iff_exists.mp hsome
  have hfew : importCount draws.stream draws.taken ≤ libraries.length :=
    (importCount_le _ _).trans (by decide)
  generalize hcount : importCount draws.stream draws.taken = count at hfew
  have hlength := (draws.skip 2).length_sample libraries count hfew
  have hsample := Draws.isSample_sample (draws.skip 2) (by decide : libraries.Nodup) hfew
  have hdraws : (draws.choose? sourceSuffixes).2.upTo maxImports = (count, draws.skip 2) := by
    rw [← hcount]
    rfl
  have hfile : generateFile draws index =
      ({ name := fileName index suffix
         imports := ((draws.skip 2).sample libraries count).1
         text := String.join (drawnLines draws.stream (draws.taken + 2 + count)
           ((draws.skip 2).sample libraries count).1) ++ closingLines },
        draws.skip (2 + 2 * count)) := by
    simp only [generateFile, hdraws, hsuffix, importLines_eq, Draws.snd_sample, hlength,
      Draws.skip_skip, Draws.stream_skip, Draws.taken_skip]
    rw [Nat.add_assoc draws.taken, Nat.two_mul, Nat.add_assoc 2]
    rfl
  rw [hfile]
  refine ⟨⟨⟨suffix, hsuffix, rfl⟩, ?_, hsample, ?_⟩, rfl⟩
  · rw [hcount]
    exact hlength
  · rw [hcount]

/-! ## All files of a project -/

/-- Where in the stream the draws of a file begin. -/
def firstDraw (draws : Draws) : Nat → Nat
  | 0 => draws.taken
  | index + 1 =>
    firstDraw draws index + (2 + 2 * importCount draws.stream (firstDraw draws index))

theorem firstDraw_skip (draws : Draws) (index : Nat) :
    firstDraw (draws.skip (2 + 2 * importCount draws.stream draws.taken)) index =
      firstDraw draws (index + 1) := by
  induction index with
  | zero => rfl
  | succ index ih =>
      rw [firstDraw, ih, Draws.stream_skip]
      rfl

theorem length_generateFiles (draws : Draws) (index count : Nat) :
    (generateFiles draws index count).1.length = count := by
  induction count generalizing draws index with
  | zero => rfl
  | succ count ih =>
      simp only [generateFiles, List.length_cons]
      rw [ih]

/-- Each file is drawn from the place of the stream where the one before it left off. -/
theorem isDrawnFrom_generateFiles {draws : Draws} {index count place : Nat}
    (h : (generateFiles draws index count).1[place]? = some file) :
    IsDrawnFrom draws.stream (firstDraw draws place) (index + place) file := by
  induction count generalizing draws index place with
  | zero => simp [generateFiles] at h
  | succ count ih =>
      obtain ⟨hfirst, hlater⟩ := isDrawnFrom_generateFile draws index
      simp only [generateFiles, hlater] at h
      cases place with
      | zero =>
          rw [List.getElem?_cons_zero, Option.some.injEq] at h
          exact h ▸ hfirst
      | succ place =>
          rw [List.getElem?_cons_succ] at h
          have hdrawn := ih h
          rw [firstDraw_skip, Draws.stream_skip, Nat.add_assoc, Nat.add_comm 1 place] at hdrawn
          exact hdrawn

end DependencyAudit.Benchmark
