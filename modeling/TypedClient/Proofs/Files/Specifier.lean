import TypedClient.Proofs.Files.Tree

/-!
# Files that specifiers name

A relative specifier is the path of a file without its extension, as seen from the directory of the
module in which it stands (`NamesFile`). Its last step is the name of the file and those before
lead to the directory of that (`namesFile_of_hasModule`).
-/

namespace TypedClient.Files

namespace Path

/-! ## Steps of a text -/

/-- A plain name behind a slash is one more step. -/
theorem parse_append_of_isPlain {lead name : String} (hlead : lead.toList ≠ [])
    (hname : IsPlain name) : parse (lead ++ "/" ++ name) = (parse lead).entry name := by
  have hlast : (Text.split (· == '/') name).filterMap stepOf? = [.name name] := by
    unfold IsPlain parse at hname
    split at hname
    · cases hname
    · exact hname
  have htext : (lead ++ "/" ++ name).toList = lead.toList ++ '/' :: name.toList := by simp
  have hpieces : Text.split (· == '/') (lead ++ "/" ++ name) =
      Text.split (· == '/') lead ++ Text.split (· == '/') name := by
    rw [Text.split, htext, Text.splitList_append_cons (by simp), List.map_append]
    rfl
  have hhead : (lead ++ "/" ++ name).toList.head? = lead.toList.head? := by
    rw [htext, List.head?_append_of_ne_nil _ hlead]
  simp only [parse, hpieces, hhead, List.filterMap_append, hlast, entry]
  split <;> simp

theorem join_entry (base path : Path) (name : String) :
    base.join (path.entry name) = (base.join path).entry name := by
  cases path with
  | nil => simp [join, isAbsolute, entry]
  | cons step path =>
      have hroot : ∀ rest : Path, isAbsolute (step :: rest) = (some step == some .root) :=
        fun _ => rfl
      simp only [join, entry, List.cons_append, hroot]
      cases some step == some Step.root <;> simp

@[simp]
theorem join_nil (base : Path) : base.join [] = base := by
  simp [join, isAbsolute]

/-! ## Places -/

theorem location_append (path more : Path) :
    location (path ++ more) = more.foldl locationStep path.location := List.foldl_append

theorem location_entry (path : Path) (name : String) :
    (path.entry name).location = path.location.entry name := location_append path _

@[simp]
theorem location_place (names : List String) : (place names).location = place names :=
  Straight.location_eq ⟨[.root], rfl, by simp⟩

end Path

namespace Tree

open Path

/-- The specifiers that are seen from the module in which they stand. -/
def IsRelative (specifier : String) : Prop := specifier.toList.head? = some '.'

/-- The extensions of modules. -/
def moduleExtensions : List String := [".ts", ".js"]

/-- A specifier names a file that is there, as seen from a directory. -/
def NamesFile (t : Tree) (dir : Path) (specifier : String) : Prop :=
  ∃ extension ∈ moduleExtensions, ∃ contents,
    t.entry? (dir.join (parse (specifier ++ extension))).location = some (.file contents)

/-- There is a module of the given name in a directory. -/
def HasModule (t : Tree) (names : List String) (name : String) : Prop :=
  ∃ extension ∈ moduleExtensions, IsPlain (name ++ extension) ∧
    ∃ contents, t.entry? (place (names ++ [name ++ extension])) = some (.file contents)

/-- A module is named by its name behind the way to its directory. -/
theorem namesFile_of_hasModule {t : Tree} {dir : Path} {names : List String} {lead name : String}
    (hlead : lead.toList ≠ []) (hway : (dir.join (parse lead)).location = place names)
    (h : t.HasModule names name) : t.NamesFile dir (lead ++ "/" ++ name) := by
  obtain ⟨extension, hextension, hplain, contents, hentry⟩ := h
  refine ⟨extension, hextension, contents, ?_⟩
  rw [String.append_assoc, parse_append_of_isPlain hlead hplain, join_entry, location_entry, hway,
    entry_place, hentry]

/-- A name behind the way to a directory names the module of that name in it. -/
theorem namesFile_of_toList {t : Tree} {dir : Path} {way : List String}
    {stem lead name specifier : String}
    (hspecifier : specifier.toList = stem.toList ++ name.toList) (hstem : stem = lead ++ "/")
    (hlead : lead.toList ≠ []) (hway : (dir.join (parse lead)).location = place way)
    (h : t.HasModule way name) : t.NamesFile dir specifier := by
  rw [hstem, ← String.toList_append] at hspecifier
  rw [String.toList_injective hspecifier]
  exact namesFile_of_hasModule hlead hway h

/-! ## Ways between directories -/

theorem parent_place (names : List String) (name : String) :
    Path.parent (place (names ++ [name])) = place names := by
  rw [Path.parent, place_append]
  exact List.dropLast_concat

/-- A step up from a directory leads to the one around it. -/
theorem location_join_up (names : List String) (here : String) :
    ((place (names ++ [here])).join [.up]).location = place names := by
  have hjoin : (place (names ++ [here])).join [.up] = place (names ++ [here]) ++ [.up] := rfl
  rw [hjoin, location_append, location_place, List.foldl_cons, List.foldl_nil, locationStep,
    if_neg (by simp [place]), place_append]
  exact List.dropLast_concat

theorem location_join_name (path : Path) (names : List String) (way : Path) (name : String)
    (h : (path.join way).location = place names) :
    (path.join (way.entry name)).location = place (names ++ [name]) := by
  rw [join_entry, location_entry, h, entry_place]

end Tree

end TypedClient.Files
