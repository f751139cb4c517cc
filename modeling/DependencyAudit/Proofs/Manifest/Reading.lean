import DependencyAudit.Manifest.Reader
import DependencyAudit.Proofs.Files.Walk
import DependencyAudit.Proofs.Json.Soundness
import DependencyAudit.Proofs.Manifest.DeclaredNames
import Mathlib.Data.List.Induction

/-!
# What a manifest reads from a file

A file is read exactly when its bytes hold a JSON value: after at most one byte order
mark they encode a text which, with its line ends unified, is an element of that
value.  The manifest depends on the value alone, whichever way it is written.  Every
field is taken from the last member of its name, and a mapping lists the names of its
members where they first stand, each with the version of its last member.
-/

namespace DependencyAudit

open Json

/-! ## Last members -/

/-- The value of the last member of a name. -/
def Json.IsLast (name : CodeText) (members : List (CodeText × Json)) (value : Json) : Prop :=
  ∃ before after, members = before ++ (name, value) :: after ∧
    ∀ member ∈ after, member.1 ≠ name

theorem Json.not_isLast_nil (name : CodeText) (value : Json) : ¬ IsLast name [] value := by
  intro hlast
  obtain ⟨before, after, heq, -⟩ := hlast
  simp at heq

theorem Json.isLast_append (name other : CodeText) (members : List (CodeText × Json))
    (value last : Json) :
    IsLast name (members ++ [(other, last)]) value ↔
      if other = name then value = last else IsLast name members value := by
  constructor
  · intro hexists
    obtain ⟨before, after, heq, hafter⟩ := hexists
    cases after using List.reverseRecOn with
    | nil =>
        obtain ⟨-, hlast⟩ := List.append_inj' heq rfl
        simp only [List.cons.injEq, Prod.mk.injEq, and_true] at hlast
        rw [if_pos hlast.1, hlast.2]
    | append_singleton after member =>
        have hne := hafter member (by simp)
        have hsplit : before ++ (name, value) :: (after ++ [member]) =
            (before ++ (name, value) :: after) ++ [member] := by simp
        obtain ⟨hmembers, hlast⟩ := List.append_inj' (heq.trans hsplit) rfl
        rw [List.singleton_inj] at hlast
        rw [← hlast] at hne
        rw [if_neg hne]
        exact ⟨before, after, hmembers, fun m hm => hafter m (by simp [hm])⟩
  · intro h
    split at h
    · next hname =>
        exact ⟨members, [], by rw [hname, h], by simp⟩
    · next hname =>
        obtain ⟨before, after, rfl, hafter⟩ := h
        refine ⟨before, after ++ [(other, last)], by simp, ?_⟩
        intro member hmember
        rw [List.mem_append, List.mem_singleton] at hmember
        cases hmember with
        | inl hold => exact hafter member hold
        | inr hnew => exact hnew ▸ hname

theorem Json.lastMember?_append (name other : CodeText) (members : List (CodeText × Json))
    (last : Json) :
    lastMember? name (members ++ [(other, last)]) =
      if other = name then some last else lastMember? name members := by
  simp only [lastMember?, List.findRev?_eq_findRev?TR, List.findRev?TR, List.reverse_append,
    List.reverse_singleton, List.singleton_append, List.find?_cons]
  by_cases hname : other = name <;> simp [hname]

theorem Json.lastMember?_eq_some_iff (name : CodeText) (members : List (CodeText × Json))
    (value : Json) : lastMember? name members = some value ↔ IsLast name members value := by
  induction members using List.reverseRecOn with
  | nil => simp [lastMember?, List.findRev?, not_isLast_nil]
  | append_singleton members member ih =>
      rw [lastMember?_append, isLast_append, ← ih]
      split
      · rw [Option.some.injEq, eq_comm]
      · rfl

/-! ## Mappings -/

/-- The mapping has the names of the members, each where it first stands, with the version of
its last member. -/
structure Mapping.Lists (mapping : Mapping) (members : List (CodeText × Json)) : Prop where
  names : mapping.names = (members.map Prod.fst).eraseDups
  entries : ∀ name version, (name, version) ∈ mapping.entries ↔ IsLast name members version

theorem Mapping.mem_putIn {entries : List (CodeText × Json)} (h : (entries.map Prod.fst).Nodup)
    (name other : CodeText) (version last : Json) :
    (name, version) ∈ putIn other last entries ↔
      if other = name then version = last else (name, version) ∈ entries := by
  induction entries with
  | nil =>
      by_cases hname : other = name
      · simp [putIn, hname]
      · simp [putIn, hname, Ne.symm hname]
  | cons entry rest ih =>
      rw [List.map_cons, List.nodup_cons] at h
      have hrest := ih h.2
      by_cases hentry : entry.1 = other
      · rw [putIn, if_pos hentry]
        by_cases hname : other = name
        · have hnone : (name, version) ∉ rest := by
            intro hmem
            exact h.1 (by rw [hentry, hname]; exact List.mem_map_of_mem hmem)
          simp [hname, hnone]
        · have hne : (name, version) ≠ entry := by
            intro heq
            exact hname (by rw [← hentry, ← heq])
          simp [hname, Ne.symm hname, hne]
      · rw [putIn, if_neg hentry, List.mem_cons, hrest]
        by_cases hname : other = name
        · have hne : (name, version) ≠ entry := by
            intro heq
            exact hentry (by rw [← heq, hname])
          simp [hname, hne]
        · simp [hname]

theorem Mapping.ofMembers_append (members : List (CodeText × Json)) (member : CodeText × Json) :
    ofMembers (members ++ [member]) = (ofMembers members).put member.1 member.2 := by
  rw [ofMembers, List.foldl_append]
  rfl

theorem Mapping.lists_ofMembers (members : List (CodeText × Json)) :
    (ofMembers members).Lists members := by
  induction members using List.reverseRecOn with
  | nil => exact ⟨rfl, fun name version => by simp [ofMembers, empty, not_isLast_nil]⟩
  | append_singleton members member ih =>
      obtain ⟨other, last⟩ := member
      rw [ofMembers_append]
      refine ⟨?_, ?_⟩
      · have hnames : ((ofMembers members).put other last).names =
            if other ∈ (ofMembers members).names then (ofMembers members).names
            else (ofMembers members).names ++ [other] := names_putIn _ _ _
        rw [hnames, ih.names, List.map_append, List.map_singleton, Manifest.eraseDups_concat]
        simp only [List.mem_eraseDups]
      · intro name version
        rw [isLast_append, ← ih.entries]
        exact mem_putIn (ofMembers members).unique name other version last

theorem Mapping.entries_unique {left right : List (CodeText × Json)}
    (hunique : (right.map Prod.fst).Nodup) (hnames : left.map Prod.fst = right.map Prod.fst)
    (hsub : ∀ entry ∈ left, entry ∈ right) : left = right := by
  induction left generalizing right with
  | nil =>
      rw [List.map_nil, eq_comm, List.map_eq_nil_iff] at hnames
      exact hnames.symm
  | cons entry rest ih =>
      cases right with
      | nil => contradiction
      | cons other more =>
          rw [List.map_cons, List.map_cons, List.cons.injEq] at hnames
          rw [List.map_cons, List.nodup_cons] at hunique
          have hentry : entry = other := by
            cases List.mem_cons.mp (hsub entry (by simp)) with
            | inl heq => exact heq
            | inr hmem => exact absurd (hnames.1 ▸ List.mem_map_of_mem hmem) hunique.1
          have hrest : ∀ member ∈ rest, member ∈ more := by
            intro member hmember
            cases List.mem_cons.mp (hsub member (List.mem_cons_of_mem entry hmember)) with
            | inr hmem => exact hmem
            | inl heq =>
                have hname : other.1 ∈ more.map Prod.fst := by
                  rw [← hnames.2, ← heq]
                  exact List.mem_map_of_mem hmember
                exact absurd hname hunique.1
          rw [hentry, ih hunique.2 hnames.2 hrest]

theorem Mapping.eq_ofMembers {mapping : Mapping} {members : List (CodeText × Json)}
    (h : mapping.Lists members) : mapping = ofMembers members := by
  have hmembers := lists_ofMembers members
  have hentries : mapping.entries = (ofMembers members).entries := by
    refine entries_unique (ofMembers members).unique (h.names.trans hmembers.names.symm) ?_
    intro entry hentry
    obtain ⟨name, version⟩ := entry
    exact (hmembers.entries name version).mpr ((h.entries name version).mp hentry)
  obtain ⟨entries, hunique⟩ := mapping
  cases hentries
  rfl

/-! ## Manifests -/

namespace Manifest

variable {limits : Limits}

/-- The value has a member of this name, and the last one has this value. -/
def HasField (value : Json) (name : CodeText) (field : Json) : Prop :=
  ∃ members, value = .object members ∧ IsLast name members field

/-- The manifest of a value.  A field is present exactly when the last member of its name is
of the right kind. -/
structure Describes (manifest : Manifest) (value : Json) : Prop where
  name : ∀ text, manifest.name = some text ↔ HasField value "name" (.string text)
  version : ∀ text, manifest.version = some text ↔ HasField value "version" (.string text)
  mapping : ∀ cls mapping, manifest.mapping? cls = some mapping ↔
    ∃ members, HasField value cls.field (.object members) ∧ mapping.Lists members

theorem bind_lastMember?_eq_some_iff {α : Type} (value : Json) (name : CodeText)
    (select : Json → Option α) (found : α) :
    (lastMember? name (value.members?.getD [])).bind select = some found ↔
      ∃ field, HasField value name field ∧ select field = some found := by
  rw [Option.bind_eq_some_iff]
  cases value with
  | object members =>
      simp [members?, HasField, lastMember?_eq_some_iff]
  | null => simp [members?, HasField, lastMember?]
  | bool flag => simp [members?, HasField, lastMember?]
  | integer n => simp [members?, HasField, lastMember?]
  | real text => simp [members?, HasField, lastMember?]
  | string text => simp [members?, HasField, lastMember?]
  | array items => simp [members?, HasField, lastMember?]

theorem string?_eq_some_iff (value : Json) (text : CodeText) :
    value.string? = some text ↔ value = .string text := by
  cases value <;> simp [string?]

theorem members?_eq_some_iff (value : Json) (members : List (CodeText × Json)) :
    value.members? = some members ↔ value = .object members := by
  cases value <;> simp [members?]

theorem stringField_eq_some_iff (value : Json) (name text : CodeText) :
    stringField (value.members?.getD []) name = some text ↔
      HasField value name (.string text) := by
  rw [stringField, bind_lastMember?_eq_some_iff]
  simp [string?_eq_some_iff]

theorem mappingField_eq_some_iff (value : Json) (cls : DependencyClass) (mapping : Mapping) :
    mappingField (value.members?.getD []) cls = some mapping ↔
      ∃ members, HasField value cls.field (.object members) ∧ mapping.Lists members := by
  rw [mappingField, Option.map_eq_some_iff]
  constructor
  · intro hexists
    obtain ⟨members, hmembers, rfl⟩ := hexists
    rw [bind_lastMember?_eq_some_iff] at hmembers
    obtain ⟨field, hfield, hobject⟩ := hmembers
    rw [members?_eq_some_iff] at hobject
    exact ⟨members, hobject ▸ hfield, Mapping.lists_ofMembers members⟩
  · intro hexists
    obtain ⟨members, hfield, hlists⟩ := hexists
    refine ⟨members, ?_, (Mapping.eq_ofMembers hlists).symm⟩
    rw [bind_lastMember?_eq_some_iff]
    exact ⟨.object members, hfield, rfl⟩

theorem describes_ofJson (value : Json) : (ofJson value).Describes value := by
  refine ⟨?_, ?_, ?_⟩
  · intro text
    exact stringField_eq_some_iff value "name" text
  · intro text
    exact stringField_eq_some_iff value "version" text
  · intro cls mapping
    cases cls with
    | production => exact mappingField_eq_some_iff value .production mapping
    | development => exact mappingField_eq_some_iff value .development mapping
    | peer => exact mappingField_eq_some_iff value .peer mapping

/-! ## The bytes of a file -/

/-- The bytes hold a value: after at most one byte order mark they encode a text of it. -/
def HoldsValue (bytes : List UInt8) (value : Json) : Prop :=
  ∃ characters,
    (bytes = Utf8.encode characters ∨
      bytes = Utf8.byteOrderMark ++ Utf8.encode characters) ∧
    Element (Text.unifyNewlines characters) value

theorem not_element_nil (value : Json) : ¬ Element [] value := by
  intro h
  generalize htext : [] = text at h
  cases h with
  | mk _ hbody _ =>
      obtain ⟨c, rest, rfl, -⟩ := hbody.exists_head
      simp at htext

theorem characters_of_element {characters : List Char} {value : Json}
    (h : Element (Text.unifyNewlines characters) value) :
    characters ≠ [] ∧ characters.head? ≠ some '\uFEFF' := by
  constructor
  · intro hnil
    rw [hnil] at h
    exact not_element_nil value h
  · intro hhead
    cases characters with
    | nil => contradiction
    | cons c rest =>
        rw [List.head?_cons, Option.some.injEq] at hhead
        rw [hhead, Text.unifyNewlines_cons_of_ne (by decide)] at h
        exact h.not_byteOrderMark rfl

theorem exists_parse_of_jsonOfBytes {bytes : List UInt8} {value : Json}
    (h : jsonOfBytes limits bytes = .ok (.ok value)) :
    ∃ characters, Utf8.decode (Utf8.dropByteOrderMark bytes) = .ok characters ∧
      parse limits.containers (Text.unifyNewlines characters) = .ok value := by
  unfold jsonOfBytes at h
  split at h
  · simp at h
  · next characters hdecode =>
      refine ⟨characters, hdecode, ?_⟩
      simp only at h
      split at h
      · next found hparse =>
          cases h
          exact hparse
      · simp at h
      · simp at h
      · simp at h

theorem holdsValue_of_jsonOfBytes {bytes : List UInt8} {value : Json}
    (h : jsonOfBytes limits bytes = .ok (.ok value)) : HoldsValue bytes value := by
  obtain ⟨characters, hdecode, hparse⟩ := exists_parse_of_jsonOfBytes h
  have helement := element_of_parse hparse
  obtain ⟨hne, hmark⟩ := characters_of_element helement
  rw [Utf8.decode_dropByteOrderMark_eq_ok_iff hne hmark] at hdecode
  exact ⟨characters, hdecode, helement⟩

theorem jsonOfBytes_of_holdsValue {bytes : List UInt8} {value : Json} (h : HoldsValue bytes value)
    (hlimits : value.IsWithin limits.containers Text.maxDigits) :
    jsonOfBytes limits bytes = .ok (.ok value) := by
  obtain ⟨characters, hbytes, helement⟩ := h
  obtain ⟨hne, hmark⟩ := characters_of_element helement
  have hdecode := (Utf8.decode_dropByteOrderMark_eq_ok_iff hne hmark).mpr hbytes
  simp only [jsonOfBytes, hdecode, parse_of_element helement hlimits]

theorem read_eq_ok {tree : Tree} {path : Path} {bytes : List UInt8} {value : Json}
    (hread : tree.read path = .ok bytes) (hbytes : jsonOfBytes limits bytes = .ok (.ok value)) :
    read limits tree path = .ok ⟨.ok (ofJson value),
      if value.members?.isSome then [] else [Event.notAnObject path]⟩ := by
  simp only [read, hread, hbytes]

theorem jsonOfBytes_of_read {tree : Tree} {path : Path} {bytes : List UInt8}
    {manifest : Manifest} {events : List Event} (hread : tree.read path = .ok bytes)
    (h : read limits tree path = .ok ⟨.ok manifest, events⟩) :
    ∃ value, jsonOfBytes limits bytes = .ok (.ok value) ∧ manifest = ofJson value := by
  simp only [read, hread] at h
  split at h
  · contradiction
  · simp at h
  · next value hbytes =>
      simp only [Except.ok.injEq, Logged.mk.injEq] at h
      exact ⟨value, hbytes, h.1.symm⟩

/-- If the reader can hold at least 300 containers open, a file of a value with no more of
them is read exactly when its bytes hold the value, and the manifest is then that of the
value, however it is written. -/
theorem read_iff_holdsValue {tree : Tree} {path : Path} {bytes : List UInt8}
    (hcontainers : 300 ≤ limits.containers) (hread : tree.read path = .ok bytes)
    (hlimits : ∀ value, HoldsValue bytes value → value.IsWithin 300 4300) :
    ((∃ manifest events, read limits tree path = .ok ⟨.ok manifest, events⟩) ↔
        ∃ value, HoldsValue bytes value) ∧
      ∀ manifest events, read limits tree path = .ok ⟨.ok manifest, events⟩ →
        ∀ value, HoldsValue bytes value → manifest.Describes value := by
  have hvalue : ∀ value, HoldsValue bytes value → jsonOfBytes limits bytes = .ok (.ok value) := by
    intro value h
    exact jsonOfBytes_of_holdsValue h ((hlimits value h).mono hcontainers (by decide))
  refine ⟨⟨?_, ?_⟩, ?_⟩
  · intro hexists
    obtain ⟨manifest, events, h⟩ := hexists
    obtain ⟨value, hbytes, -⟩ := jsonOfBytes_of_read hread h
    exact ⟨value, holdsValue_of_jsonOfBytes hbytes⟩
  · intro hexists
    obtain ⟨value, h⟩ := hexists
    exact ⟨_, _, read_eq_ok hread (hvalue value h)⟩
  · intro manifest events h value hholds
    obtain ⟨found, hbytes, rfl⟩ := jsonOfBytes_of_read hread h
    rw [hvalue value hholds] at hbytes
    cases hbytes
    exact describes_ofJson value

theorem HoldsValue.isWithin_length {bytes : List UInt8} {value : Json}
    (h : HoldsValue bytes value) : value.IsWithin bytes.length bytes.length := by
  obtain ⟨characters, hbytes, helement⟩ := h
  have hlines := Text.length_unifyNewlines_le characters
  have hencode := Utf8.length_le_length_encode characters
  have hlength : (Utf8.encode characters).length ≤ bytes.length := by
    cases hbytes with
    | inl hplain => rw [hplain]
    | inr hmarked =>
        rw [hmarked, List.length_append]
        exact Nat.le_add_left _ _
  exact helement.isWithin_length.mono (by omega) (by omega)

theorem parse_sampleManifest :
    parse Limits.standard.containers (Text.unifyNewlines Tree.sampleManifest.toList) =
      .ok (.object [
        ("name", .string "café"),
        ("dependencies", .object [("a", .string "1"), ("b", .string "2"), ("a", .string "3")]),
        ("devDependencies", .object [("c", .string "1")])]) := by
  cbv

theorem holdsValue_sampleManifest :
    HoldsValue (Utf8.encode Tree.sampleManifest.toList) (.object [
      ("name", .string "café"),
      ("dependencies", .object [("a", .string "1"), ("b", .string "2"), ("a", .string "3")]),
      ("devDependencies", .object [("c", .string "1")])]) :=
  ⟨_, Or.inl rfl, element_of_parse parse_sampleManifest⟩

theorem isWithin_sampleManifest (value : Json)
    (h : HoldsValue (Utf8.encode Tree.sampleManifest.toList) value) :
    value.IsWithin 300 4300 := by
  have hlength : (Utf8.encode Tree.sampleManifest.toList).length ≤ 300 := by cbv
  exact h.isWithin_length.mono hlength (by omega)

/-- The manifest of the small project has an escape and a name twice. -/
theorem read_sampleProject :
    ∃ bytes manifest events,
      300 ≤ Limits.standard.containers ∧
      Tree.sampleProject.read (Path.parse "./package.json") = .ok bytes ∧
      (∀ value, HoldsValue bytes value → value.IsWithin 300 4300) ∧
      read .standard Tree.sampleProject (Path.parse "./package.json") =
        .ok ⟨.ok manifest, events⟩ ∧
      manifest.Describes (.object [
        ("name", .string "café"),
        ("dependencies", .object [("a", .string "1"), ("b", .string "2"), ("a", .string "3")]),
        ("devDependencies", .object [("c", .string "1")])]) := by
  have hcontainers : 300 ≤ Limits.standard.containers := by decide
  obtain ⟨hiff, hdescribes⟩ :=
    read_iff_holdsValue hcontainers Tree.read_sampleManifest isWithin_sampleManifest
  obtain ⟨manifest, events, h⟩ := hiff.mpr ⟨_, holdsValue_sampleManifest⟩
  exact ⟨_, manifest, events, hcontainers, Tree.read_sampleManifest, isWithin_sampleManifest, h,
    hdescribes manifest events h _ holdsValue_sampleManifest⟩

end Manifest

end DependencyAudit
