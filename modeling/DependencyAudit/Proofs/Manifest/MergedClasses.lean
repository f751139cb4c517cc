import DependencyAudit.Proofs.Manifest.Outcomes

/-!
# Merged classes

The classes of a manifest may share names.  Merging them goes through production, then
development, then peer names, and keeps a name where it first stands, so the order of two
names is that of their first places and the production names come first.  Each class lists
a name once to begin with: a manifest that is read takes every class from the last field of
that class, and of repeated members of the field the first gives the place.
-/

namespace DependencyAudit.Manifest

open Json

variable {limits : Limits} {names : List CodeText} {name first second : CodeText}

/-! ## First places -/

theorem nodup_eraseDups (names : List CodeText) : names.eraseDups.Nodup := by
  induction names using List.reverseRecOn with
  | nil => exact List.nodup_nil
  | append_singleton names name ih =>
      rw [eraseDups_concat]
      split
      · exact ih
      · next hnew =>
          rw [← List.concat_eq_append, List.nodup_concat]
          exact ⟨by rwa [List.mem_eraseDups], ih⟩

/-- A new name at the end comes behind all others and leaves their order alone. -/
theorem idxOf_concat_lt_iff (hnew : name ∉ names) (hfirst : first ∈ names ++ [name])
    (hsecond : second ∈ names ++ [name]) :
    (names ++ [name]).idxOf first < (names ++ [name]).idxOf second ↔
      first ∈ names ∧ (second ∈ names → names.idxOf first < names.idxOf second) := by
  rw [List.mem_append, List.mem_singleton] at hfirst hsecond
  rcases hfirst with hfirst | rfl
  · rw [List.idxOf_append_of_mem hfirst]
    rcases hsecond with hsecond | rfl
    · rw [List.idxOf_append_of_mem hsecond]
      simp [hfirst, hsecond]
    · rw [List.idxOf_append_of_notMem hnew]
      have hlength := List.idxOf_lt_length_of_mem hfirst
      simp [hfirst, hnew, hlength]
  · rw [List.idxOf_append_of_notMem hnew]
    rcases hsecond with hsecond | rfl
    · rw [List.idxOf_append_of_mem hsecond]
      have hlength := List.idxOf_lt_length_of_mem hsecond
      simp [hnew, hlength.le]
    · rw [List.idxOf_append_of_notMem hnew]
      exact iff_of_false (lt_irrefl _) fun h => hnew h.1

theorem idxOf_eraseDups_lt_iff (hfirst : first ∈ names) (hsecond : second ∈ names) :
    names.eraseDups.idxOf first < names.eraseDups.idxOf second ↔
      names.idxOf first < names.idxOf second := by
  induction names using List.reverseRecOn with
  | nil => contradiction
  | append_singleton names name ih =>
      rw [eraseDups_concat]
      by_cases hold : name ∈ names
      · have hmem : ∀ other ∈ names ++ [name], other ∈ names := by
          simp only [List.mem_append, List.mem_singleton]
          rintro other (hother | rfl)
          · exact hother
          · exact hold
        have hfirst := hmem first hfirst
        have hsecond := hmem second hsecond
        rw [if_pos hold, List.idxOf_append_of_mem hfirst, List.idxOf_append_of_mem hsecond]
        exact ih hfirst hsecond
      · have hnew : name ∉ names.eraseDups := by rwa [List.mem_eraseDups]
        have hkept : ∀ other,
            other ∈ names.eraseDups ++ [name] ↔ other ∈ names ++ [name] := by
          simp [List.mem_eraseDups]
        rw [if_neg hold, idxOf_concat_lt_iff hold hfirst hsecond,
          idxOf_concat_lt_iff hnew ((hkept first).mpr hfirst) ((hkept second).mpr hsecond)]
        simp only [List.mem_eraseDups]
        exact and_congr_right fun hfirst => forall_congr' fun hsecond => ih hfirst hsecond

theorem eraseDups_prefix_append (names more : List CodeText) :
    names.eraseDups <+: (names ++ more).eraseDups := by
  rw [List.eraseDups_append]
  exact List.prefix_append _ _

/-! ## Declared names -/

/-- The names of all classes one after the other: production, development, peer. -/
def listedNames (manifest : Manifest) : List CodeText :=
  manifest.names .production ++ manifest.names .development ++ manifest.names .peer

theorem declared_true_eq (manifest : Manifest) :
    manifest.declared true = manifest.listedNames.eraseDups := by
  simp [declared, allNames, merged, DependencyClass.all, listedNames]

theorem declared_false_eq (manifest : Manifest) :
    manifest.declared false = (manifest.names .production).eraseDups := by
  simp [declared, productionNames, merged]

theorem declared_prefix (manifest : Manifest) :
    manifest.declared false <+: manifest.declared true := by
  rw [declared_true_eq, declared_false_eq, listedNames, List.append_assoc]
  exact eraseDups_prefix_append _ _

/-! ## Classes that were read -/

/-- Each class lists a name once.  A class with a field has the names of the members of its
last field, each where it first stands, and a class without a field has none. -/
structure ListsFields (manifest : Manifest) (value : Json) : Prop where
  nodup : ∀ cls, (manifest.names cls).Nodup
  present : ∀ cls members, HasField value cls.field (.object members) →
    manifest.names cls = (members.map Prod.fst).eraseDups
  absent : ∀ cls, (∀ members, ¬ HasField value cls.field (.object members)) →
    manifest.names cls = []

theorem Describes.listsFields {manifest : Manifest} {value : Json}
    (h : manifest.Describes value) : manifest.ListsFields value := by
  have hpresent : ∀ cls members, HasField value cls.field (.object members) →
      manifest.names cls = (members.map Prod.fst).eraseDups := by
    intro cls members hfield
    have hlists := Mapping.lists_ofMembers members
    have hmapping := (h.mapping cls (Mapping.ofMembers members)).mpr ⟨members, hfield, hlists⟩
    rw [names, hmapping]
    exact hlists.names
  have habsent : ∀ cls, (∀ members, ¬ HasField value cls.field (.object members)) →
      manifest.names cls = [] := by
    intro cls hnone
    cases hmapping : manifest.mapping? cls with
    | none => rw [names, hmapping]
    | some mapping =>
        obtain ⟨members, hfield, -⟩ := (h.mapping cls mapping).mp hmapping
        exact absurd hfield (hnone members)
  refine ⟨?_, hpresent, habsent⟩
  intro cls
  by_cases hfield : ∃ members, HasField value cls.field (.object members)
  · obtain ⟨members, hmembers⟩ := hfield
    rw [hpresent cls members hmembers]
    exact nodup_eraseDups _
  · rw [habsent cls (not_exists.mp hfield)]
    exact List.nodup_nil

theorem exists_bytes_of_read {tree : Tree} {path : Path} {manifest : Manifest}
    {events : List Event} (h : read limits tree path = .ok ⟨.ok manifest, events⟩) :
    ∃ bytes, tree.read path = .ok bytes := by
  unfold read at h
  split at h
  · contradiction
  · simp at h
  · next bytes hread => exact ⟨bytes, hread⟩

/-- With every class checked, the names are those of the three classes, each once, in the
order of their first places; the names that are checked without it come first.  A manifest
that is read lists the names of each class once, also when its text repeats a field or a
member. -/
theorem declared_in_first_places (manifest : Manifest) :
    (manifest.declared true).Nodup ∧
      (∀ name, name ∈ manifest.declared true ↔ ∃ cls, name ∈ manifest.names cls) ∧
      (∀ first ∈ manifest.declared true, ∀ second ∈ manifest.declared true,
        ((manifest.declared true).idxOf first < (manifest.declared true).idxOf second ↔
          manifest.listedNames.idxOf first < manifest.listedNames.idxOf second)) ∧
      manifest.declared false <+: manifest.declared true ∧
      ∀ limits tree path events, read limits tree path = .ok ⟨.ok manifest, events⟩ →
        ∃ bytes value, tree.read path = .ok bytes ∧ HoldsValue bytes value ∧
          manifest.ListsFields value := by
  refine ⟨?_, ?_, ?_, declared_prefix manifest, ?_⟩
  · rw [declared_true_eq]
    exact nodup_eraseDups _
  · intro name
    simp [mem_declared]
  · intro first hfirst second hsecond
    rw [declared_true_eq] at hfirst hsecond ⊢
    exact idxOf_eraseDups_lt_iff (List.mem_eraseDups.mp hfirst) (List.mem_eraseDups.mp hsecond)
  · intro limits tree path events h
    obtain ⟨bytes, hread⟩ := exists_bytes_of_read h
    obtain ⟨value, hvalue, rfl⟩ := jsonOfBytes_of_read hread h
    exact ⟨bytes, value, hread, holdsValue_of_jsonOfBytes hvalue,
      (describes_ofJson value).listsFields⟩

/-- A text with a field twice and with members twice. -/
def repeatedManifest : String :=
  "\x7b\"dependencies\":\x7b\"z\":1\x7d," ++
    "\"devDependencies\":\x7b\"c\":1,\"b\":1,\"c\":2\x7d," ++
    "\"peerDependencies\":\x7b\"d\":1,\"a\":1\x7d," ++
    "\"dependencies\":\x7b\"b\":1,\"a\":1,\"b\":2\x7d\x7d"

def repeatedFields : Json :=
  .object [
    ("dependencies", .object [("z", .integer 1)]),
    ("devDependencies", .object [("c", .integer 1), ("b", .integer 1), ("c", .integer 2)]),
    ("peerDependencies", .object [("d", .integer 1), ("a", .integer 1)]),
    ("dependencies", .object [("b", .integer 1), ("a", .integer 1), ("b", .integer 2)])]

theorem jsonOfBytes_repeatedManifest :
    jsonOfBytes .standard (Utf8.encode repeatedManifest.toList) = .ok (.ok repeatedFields) := by
  cbv

theorem declared_of_repeatedManifest :
    ∃ manifest events value,
      read .standard (manifestProject repeatedManifest.toList) (Path.parse "./package.json") =
        .ok ⟨.ok manifest, events⟩ ∧
      HoldsValue (Utf8.encode repeatedManifest.toList) value ∧ manifest.ListsFields value ∧
      manifest.declared true = ["b", "a", "c", "d"] ∧ (manifest.declared true).Nodup ∧
      manifest.declared false = ["b", "a"] ∧
      manifest.declared false <+: manifest.declared true := by
  have hfile := read_manifestProject repeatedManifest.toList
  have hread := read_eq_ok hfile jsonOfBytes_repeatedManifest
  obtain ⟨hnodup, -, -, hprefix, hfields⟩ := declared_in_first_places (ofJson repeatedFields)
  obtain ⟨bytes, value, hbytes, hvalue, hlists⟩ := hfields _ _ _ _ hread
  rw [hfile, Except.ok.injEq] at hbytes
  subst hbytes
  refine ⟨ofJson repeatedFields, _, value, hread, hvalue, hlists, ?_, hnodup, ?_, hprefix⟩
  · decide
  · decide

end DependencyAudit.Manifest
