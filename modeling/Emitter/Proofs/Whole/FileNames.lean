import Emitter.Proofs.Names.Supplied

/-!
# The names of ActionScript files

A run that goes through leaves one file for each top-level symbol, named for it, and behind them the
file of the helper class if one of its functions is called. No two of them have the same path unless
a symbol shares its name with the helper class that is needed.
-/

namespace Emitter

open Layout Program Reading

/-- What a result holds. -/
theorem Result.eq_ok_of_toOption {α : Type} {r : Result α} {a : α} (h : r.toOption = some a) :
    r = .ok a := by
  cases r with
  | error fault => cases h
  | ok b => exact congrArg Except.ok (Option.some.inj h)

namespace Emit

variable {α β : Type}

theorem outcome_bind_eq_ok {e : Emit α} {next : α → Emit β} {b : β} :
    (e >>= next).outcome = .ok b ↔ ∃ a, e.outcome = .ok a ∧ (next a).outcome = .ok b := by
  rw [outcome_bind]
  exact Result.bind_eq_ok

theorem outcome_of_forM {f : α → Emit Unit} {items : List α} (h : (items.forM f).outcome = .ok ()) :
    ∀ item ∈ items, (f item).outcome = .ok () := by
  induction items with
  | nil => simp
  | cons item rest ih =>
      obtain ⟨⟨⟩, hitem, hrest⟩ := outcome_bind_eq_ok.mp h
      exact List.forall_mem_cons.mpr ⟨hitem, ih hrest⟩

end Emit

namespace Path

theorem toList_join (p : Path) : ∃ before : List Char, ∀ below : Path,
    below.isAbsolute = false → (p.join below).text.toList = before ++ below.text.toList := by
  by_cases hend : p.text = "" ∨ p.text.toList.getLast? = some '/'
  · exact ⟨p.text.toList, fun below h => by simp [join, h, hend]⟩
  · exact ⟨p.text.toList ++ ['/'], fun below h => by simp [join, h, hend]⟩

theorem join_inj (p : Path) {below below' : Path} (h : below.isAbsolute = false)
    (h' : below'.isAbsolute = false) : p.join below = p.join below' ↔ below = below' := by
  refine ⟨fun heq => ?_, fun heq => by rw [heq]⟩
  obtain ⟨before, hbefore⟩ := p.toList_join
  have htexts := congrArg (fun q : Path => q.text.toList) heq
  simp only [hbefore below h, hbefore below' h', List.append_cancel_left_eq,
    String.toList_inj] at htexts
  cases below
  cases below'
  exact congrArg Path.mk htexts

/-- A file that is named for a word starts no path at the root. -/
theorem isAbsolute_word {name : String} (h : isWord name = true) (suffix : String) :
    (Path.mk (name ++ suffix)).isAbsolute = false := by
  cases hname : name.toList with
  | nil => simp [isWord, hname] at h
  | cons c cs =>
      have hstart : isWordStart c = true := isWordStart_of_mem_head? h (by simp [hname])
      have hslash : c ≠ '/' := by
        rintro rfl
        revert hstart
        decide
      simpa [isAbsolute, hname] using hslash

end Path

namespace Program

/-- The name of a top-level symbol. -/
def symbolName? (p : Program) : SymbolId → Option String
  | .enumeration id => (p.enums[id.index.toNat]?).map (·.name)
  | .classDef id => (p.classes[id.index.toNat]?).map (·.name)

/-- Enumerations and classes, taken together, have distinct names, which are words, and are listed
once each. -/
structure DistinctSymbols (p : Program) : Prop where
  names : (p.enums.map (·.name) ++ p.classes.map (·.name)).Nodup
  words : ∀ name ∈ p.enums.map (·.name) ++ p.classes.map (·.name), isWord name = true
  globals : p.globals.Nodup

variable {p : Program}

theorem symbolName?_mem {id : SymbolId} {name : String} (h : p.symbolName? id = some name) :
    name ∈ p.enums.map (·.name) ++ p.classes.map (·.name) := by
  rw [List.mem_append]
  cases id with
  | enumeration id =>
      obtain ⟨e, he, rfl⟩ := Option.map_eq_some_iff.mp h
      exact .inl (List.mem_map_of_mem (List.mem_of_getElem? he))
  | classDef id =>
      obtain ⟨c, hc, rfl⟩ := Option.map_eq_some_iff.mp h
      exact .inr (List.mem_map_of_mem (List.mem_of_getElem? hc))

/-- Declarations with one name have one position. -/
theorem position_eq {α : Type} {items : List α} {f : α → String} (h : (items.map f).Nodup)
    {i j : ℕ} {a b : α} (hi : items[i]? = some a) (hj : items[j]? = some b) (hname : f a = f b) :
    i = j := by
  obtain ⟨hlt, -⟩ := List.getElem?_eq_some_iff.mp hi
  exact (List.getElem?_inj (by simpa using hlt) h).mp (by simp [hi, hj, hname])

/-- Symbols with one name are the same symbol. -/
theorem DistinctSymbols.symbolName?_inj (h : p.DistinctSymbols) {id id' : SymbolId} {name : String}
    (hid : p.symbolName? id = some name) (hid' : p.symbolName? id' = some name) : id = id' := by
  obtain ⟨henums, hclasses, hapart⟩ := List.nodup_append.mp h.names
  have hnames : ∀ {e : EnumDef} {c : ClassDef} {i j : ℕ}, p.enums[i]? = some e →
      p.classes[j]? = some c → e.name ≠ c.name := fun he hc =>
    hapart _ (List.mem_map_of_mem (List.mem_of_getElem? he)) _
      (List.mem_map_of_mem (List.mem_of_getElem? hc))
  cases id with
  | enumeration id =>
      obtain ⟨e, he, rfl⟩ := Option.map_eq_some_iff.mp hid
      cases id' with
      | enumeration id' =>
          obtain ⟨e', he', hname⟩ := Option.map_eq_some_iff.mp hid'
          have hindex := UInt64.toNat_inj.mp (position_eq henums he he' hname.symm)
          exact congrArg (fun i => SymbolId.enumeration ⟨i⟩) hindex
      | classDef id' =>
          obtain ⟨c', hc', hname⟩ := Option.map_eq_some_iff.mp hid'
          exact absurd hname.symm (hnames he hc')
  | classDef id =>
      obtain ⟨c, hc, rfl⟩ := Option.map_eq_some_iff.mp hid
      cases id' with
      | enumeration id' =>
          obtain ⟨e', he', hname⟩ := Option.map_eq_some_iff.mp hid'
          exact absurd hname (hnames he' hc)
      | classDef id' =>
          obtain ⟨c', hc', hname⟩ := Option.map_eq_some_iff.mp hid'
          have hindex := UInt64.toNat_inj.mp (position_eq hclasses hc hc' hname.symm)
          exact congrArg (fun i => SymbolId.classDef ⟨i⟩) hindex

theorem DistinctSymbols.nodup_symbolNames (h : p.DistinctSymbols) :
    (p.globals.filterMap p.symbolName?).Nodup :=
  h.globals.filterMap fun _ _ _ hid hid' => h.symbolName?_inj hid hid'

end Program

namespace ActionScript

variable {p : Program} {o : Options} {files : List OutputFile}

/-- A function of the helper class is called in the file of a top-level symbol. -/
def UsesHelper (p : Program) : Prop :=
  ∃ entry ∈ helperTexts, Uses ⟨p, .actionScript, none⟩ entry.1.name

theorem neededHelpers_ne_nil_iff : neededHelpers ⟨p, .actionScript, none⟩ ≠ [] ↔ UsesHelper p := by
  refine ⟨fun h => ?_, fun ⟨entry, hentry, huses⟩ =>
    List.ne_nil_of_mem ((mem_neededHelpers rfl).mpr ⟨hentry, huses⟩)⟩
  obtain ⟨entry, hentry⟩ := List.exists_mem_of_ne_nil _ h
  exact ⟨entry, (mem_neededHelpers rfl).mp hentry⟩

instance (p : Program) : Decidable (UsesHelper p) := decidable_of_iff _ neededHelpers_ne_nil_iff

theorem fst_symbolUnit (cx : Context) (place : Placement) (id : SymbolId) :
    (symbolUnit cx place id).map Prod.fst = cx.program.symbolName? id := by
  cases id <;> simp [symbolUnit, symbolName?, Function.comp_def]

theorem fst_units (p : Program) (place : Placement) :
    (units ⟨p, .actionScript, none⟩ place).map Prod.fst =
      p.globals.filterMap p.symbolName? ++ if UsesHelper p then ["Ci"] else [] := by
  have hsymbols : (p.globals.filterMap (symbolUnit ⟨p, .actionScript, none⟩ place)).map Prod.fst =
      p.globals.filterMap p.symbolName? := by
    rw [List.map_filterMap]
    exact List.filterMap_congr fun id _ => fst_symbolUnit _ place id
  rw [units, List.map_append, hsymbols]
  by_cases hhelper : UsesHelper p
  · simp [hhelper, neededHelpers_ne_nil_iff.mpr hhelper]
  · simp [hhelper, not_not.mp (mt neededHelpers_ne_nil_iff.mp hhelper)]

theorem map_eq_map_some {α β : Type} {f : α → Option β} {items : List α}
    (h : ∀ item ∈ items, (f item).isSome) : items.map f = (items.filterMap f).map some := by
  induction items with
  | nil => rfl
  | cons item rest ih =>
      obtain ⟨hitem, hrest⟩ := List.forall_mem_cons.mp h
      obtain ⟨b, hb⟩ := Option.isSome_iff_exists.mp hitem
      simp [hb, ih hrest]

/-- In a successful run the file of every listed symbol is printed. -/
theorem outcome_symbolFile (h : (generate "as" p o).files = .ok files) : ∀ id ∈ p.globals,
    (symbolFile ⟨p, .actionScript, none⟩ ⟨o.output, o.package⟩ id).outcome = .ok () := by
  obtain ⟨-, -, hok, -⟩ := perform_of_generate h
  obtain ⟨⟨⟩, hsymbols, -⟩ := Emit.outcome_bind_eq_ok.mp hok
  let cx : Context := ⟨p, .actionScript, none⟩
  let place : Placement := ⟨o.output, o.package⟩
  have hfiles : symbolFiles cx place = (do
      if !p.natives.isEmpty then (cx.unsupported .topLevelNatives : Result Unit)
      p.globals.forM (symbolFile cx place)) := rfl
  rw [hfiles] at hsymbols
  dsimp only at hsymbols
  split_ifs at hsymbols
  · exact Emit.outcome_of_forM (Emit.outcome_bind_eq_ok.mp hsymbols).choose_spec.2
  · exact Emit.outcome_of_forM hsymbols

/-- In a successful run every listed symbol is declared. -/
theorem isSome_symbolName? (h : (generate "as" p o).files = .ok files) :
    ∀ id ∈ p.globals, (p.symbolName? id).isSome := by
  intro id hid
  have hfile := outcome_symbolFile h id hid
  cases id with
  | enumeration id =>
      obtain ⟨e, he, -⟩ := Emit.outcome_bind_eq_ok.mp hfile
      have henum : p.enums[id.index.toNat]? = some e := @Context.enumOf_eq_ok ⟨p, _, _⟩ _ _ he
      exact Option.isSome_map.trans (Option.isSome_of_eq_some henum)
  | classDef id =>
      obtain ⟨c, hc, -⟩ := Emit.outcome_bind_eq_ok.mp hfile
      have hclass : p.classes[id.index.toNat]? = some c := @Context.classOf_eq_ok ⟨p, _, _⟩ _ _ hc
      exact Option.isSome_map.trans (Option.isSome_of_eq_some hclass)

/-- A successful run leaves a file for each top-level symbol, in order, and behind them the file of
the helper class if one of its functions is called. Their paths are distinct unless a symbol is
named as the helper class that is needed. -/
theorem paths_of_files (hp : p.DistinctSymbols) (h : (generate "as" p o).files = .ok files) :
    ∃ names : List String, p.globals.map p.symbolName? = names.map some ∧
      files.map (·.path) = (names ++ if UsesHelper p then ["Ci"] else []).map
        (fun name => o.output.join ⟨name ++ ".as"⟩) ∧
      ((files.map (·.path)).Nodup ↔ ¬(UsesHelper p ∧ "Ci" ∈ names)) := by
  let names := p.globals.filterMap p.symbolName?
  let path := fun name : String => o.output.join ⟨name ++ ".as"⟩
  let all := names ++ if UsesHelper p then ["Ci"] else []
  have hpaths : files.map (·.path) = all.map path := by
    have hall : all = (units ⟨p, .actionScript, none⟩ ⟨o.output, o.package⟩).map Prod.fst :=
      (fst_units p _).symm
    rw [generate_eq_ok h, hall, List.map_map, List.map_map]
    rfl
  have hwords : ∀ name ∈ all, isWord name = true := by
    refine List.forall_mem_append.mpr ⟨fun name hname => ?_, fun name hname => ?_⟩
    · obtain ⟨id, -, hid⟩ := List.mem_filterMap.mp hname
      exact hp.words name (symbolName?_mem hid)
    · obtain rfl : name = "Ci" := by
        split_ifs at hname
        · exact List.mem_singleton.mp hname
        · cases hname
      decide
  have hnodup : (all.map path).Nodup ↔ all.Nodup := by
    refine ⟨List.Nodup.of_map path, List.Nodup.map_on fun name hname name' hname' heq => ?_⟩
    have hfile := (o.output.join_inj (Path.isAbsolute_word (hwords name hname) _)
      (Path.isAbsolute_word (hwords name' hname') _)).mp heq
    exact (String.append_left_inj ".as").mp (Path.mk.inj hfile)
  refine ⟨names, map_eq_map_some (isSome_symbolName? h), hpaths, ?_⟩
  rw [hpaths, hnodup]
  have hnames : names.Nodup := hp.nodup_symbolNames
  by_cases hhelper : UsesHelper p
  · simp [all, hhelper, List.nodup_append', hnames]
  · simp [all, hhelper, hnames]

/-- A class whose only method clears an array, which takes a function of the helper class. -/
def clearingClass (name : String) : ClassDef :=
  let bytes : Ty := .array (.int .byte) false none
  ⟨name, .exported, none, none, [.method ⟨"Wipe", .exported, none, true, [⟨"data", bytes, none⟩],
    .void, [.eval (.call (some (.var "data" bytes)) (.builtin .arrayClear) [] .void)]⟩], []⟩

theorem paths_of_files_clearing :
    let p : Program := ⟨[⟨"Mode", .exported, none, []⟩], [clearingClass "Eraser"],
      [.classDef ⟨0⟩, .enumeration ⟨0⟩], [], .empty⟩
    ∃ files, p.DistinctSymbols ∧ (generate "as" p ⟨⟨"out"⟩, none⟩).files = .ok files ∧
      UsesHelper p ∧ files.map (·.path) = [⟨"out/Eraser.as"⟩, ⟨"out/Mode.as"⟩, ⟨"out/Ci.as"⟩] ∧
        (files.map (·.path)).Nodup := by
  intro p
  have hp : p.DistinctSymbols := ⟨by decide, by decide, by decide⟩
  have hhelper : UsesHelper p := by decide +kernel
  have hrun : (generate "as" p ⟨⟨"out"⟩, none⟩).files.toOption.isSome = true := by decide +kernel
  rcases h : (generate "as" p ⟨⟨"out"⟩, none⟩).files with fault | files
  · rw [h] at hrun
    cases hrun
  · obtain ⟨names, hnames, hpaths, hnodup⟩ := paths_of_files hp h
    obtain rfl : ["Eraser", "Mode"] = names :=
      List.map_injective_iff.mpr (Option.some_injective String) hnames
    rw [if_pos hhelper] at hpaths
    exact ⟨files, hp, rfl, hhelper, hpaths, hnodup.mpr fun h => absurd h.2 (by decide)⟩

/-- A class that is named as the helper class it needs gets the path of the helper class too. -/
theorem paths_of_files_clash :
    let p : Program := ⟨[], [clearingClass "Ci"], [.classDef ⟨0⟩], [], .empty⟩
    ∃ files, p.DistinctSymbols ∧ (generate "as" p ⟨⟨"out"⟩, none⟩).files = .ok files ∧
      files.map (·.path) = [⟨"out/Ci.as"⟩, ⟨"out/Ci.as"⟩] ∧ ¬(files.map (·.path)).Nodup := by
  intro p
  have hrun : (generate "as" p ⟨⟨"out"⟩, none⟩).files.toOption.map (List.map (·.path)) =
      some [⟨"out/Ci.as"⟩, ⟨"out/Ci.as"⟩] := by decide +kernel
  rcases h : (generate "as" p ⟨⟨"out"⟩, none⟩).files with fault | files
  · rw [h] at hrun
    cases hrun
  · rw [h] at hrun
    have hpaths : files.map (·.path) = [⟨"out/Ci.as"⟩, ⟨"out/Ci.as"⟩] := Option.some.inj hrun
    exact ⟨files, ⟨by decide, by decide, by decide⟩, rfl, hpaths, by simp [hpaths]⟩

end ActionScript

end Emitter
