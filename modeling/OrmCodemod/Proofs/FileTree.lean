import Mathlib.Tactic
import OrmCodemod.Files.Migration

/-! A tree of files under writing. A file that is written anew keeps the shape of the tree: what is a
file, what is a folder, and where a path leads. The source files below some paths are files of the
tree, and each has a name of its own. -/

namespace OrmCodemod

open Text

namespace Path

/-- A component that a path can have: not empty, and without a slash. -/
def IsPart (s : String) : Prop := s ≠ "" ∧ '/' ∉ s.toList

/-- A path with nothing but such components, from the working folder or from the root. -/
structure Proper (p : Path) : Prop where
  root : p.root = "" ∨ p.root = "/" ∨ p.root = "//"
  parts : ∀ part ∈ p.parts, IsPart part

theorem splitFrom_append (part : List Char) {cs : List Char} (h : '/' ∉ cs) (rest : List Char) :
    splitFrom part (cs ++ rest) = splitFrom (cs.reverse ++ part) rest := by
  induction cs generalizing part with
  | nil => rfl
  | cons c cs ih =>
    obtain ⟨hc, hcs⟩ : '/' ≠ c ∧ '/' ∉ cs := by simpa using h
    rw [List.cons_append, splitFrom, if_neg hc.symm, ih _ hcs]
    simp

theorem splitFrom_noSlash (cs : List Char) :
    ∀ part, '/' ∉ part → ∀ s ∈ splitFrom part cs, '/' ∉ s.toList := by
  induction cs with
  | nil =>
    intro part h s hs
    obtain rfl := List.mem_singleton.1 hs
    simpa using h
  | cons c cs ih =>
    intro part h s hs
    unfold splitFrom at hs
    split at hs
    · rcases List.mem_cons.1 hs with rfl | hs
      · simpa using h
      · exact ih [] (by simp) s hs
    · rename_i hc
      exact ih (c :: part) (by simpa [h] using fun e => hc e.symm) s hs

theorem ofString_proper (s : String) : (ofString s).Proper := by
  refine ⟨?_, fun part hpart => ?_⟩
  · simp only [ofString]
    split <;> simp
  · obtain ⟨hmem, hne⟩ := List.mem_filter.1 hpart
    refine ⟨by simp at hne; exact hne.1, ?_⟩
    exact splitFrom_noSlash _ [] (by simp) part hmem

theorem splitFrom_joinWith {parts : List String} (hne : parts ≠ [])
    (h : ∀ part ∈ parts, '/' ∉ part.toList) : splitFrom [] (joinWith "/" parts).toList = parts := by
  induction parts with
  | nil => exact absurd rfl hne
  | cons s rest ih =>
    have hs := h s List.mem_cons_self
    cases rest with
    | nil =>
      have happend := splitFrom_append [] hs []
      rw [List.append_nil] at happend
      rw [joinWith, happend, splitFrom]
      simp
    | cons t rest =>
      have hrest := ih (by simp) fun part hpart => h part (List.mem_cons_of_mem _ hpart)
      have htext : (joinWith "/" (s :: t :: rest)).toList =
          s.toList ++ '/' :: (joinWith "/" (t :: rest)).toList := by
        simp [joinWith]
      rw [htext, splitFrom_append [] hs, splitFrom, if_pos rfl, hrest]
      simp

variable {p q : Path}

theorem toString_eq (hne : p.parts ≠ []) (h : p.Proper) :
    p.toString = p.root ++ joinWith "/" p.parts := by
  have hbody : joinWith "/" p.parts ≠ "" := by
    intro hempty
    have hsplit := splitFrom_joinWith hne fun part hpart => (h.parts part hpart).2
    rw [hempty] at hsplit
    have hpart : "" ∈ p.parts := by
      rw [← hsplit]
      exact List.mem_singleton.2 rfl
    exact (h.parts "" hpart).1 rfl
  simp [toString, hbody]

theorem takeWhile_joinWith (hne : p.parts ≠ []) (h : p.Proper) :
    (joinWith "/" p.parts).toList.takeWhile (· = '/') = [] := by
  obtain ⟨part, rest, hparts⟩ := List.exists_cons_of_ne_nil hne
  obtain ⟨hpart, hslash⟩ := h.parts part (by simp [hparts])
  obtain ⟨c, cs, hcs⟩ := List.exists_cons_of_ne_nil fun hnil : part.toList = [] =>
    hpart (String.toList_eq_nil_iff.1 hnil)
  have hc : c ≠ '/' := by
    rintro rfl
    exact hslash (by simp [hcs])
  obtain ⟨more, hmore⟩ : ∃ more, (joinWith "/" p.parts).toList = part.toList ++ more := by
    rw [hparts]
    cases rest with
    | nil => exact ⟨[], (List.append_nil _).symm⟩
    | cons next rest =>
      refine ⟨"/".toList ++ (joinWith "/" (next :: rest)).toList, ?_⟩
      simp only [joinWith, String.toList_append, List.append_assoc]
  simp [hmore, hcs, hc]

theorem takeWhile_toString (hne : p.parts ≠ []) (h : p.Proper) :
    p.toString.toList.takeWhile (· = '/') = p.root.toList := by
  rw [toString_eq hne h, String.toList_append]
  have hbody := takeWhile_joinWith hne h
  rcases h.root with hroot | hroot | hroot <;> simp [hroot, hbody]

theorem toString_inj (hp : p.parts ≠ []) (hq : q.parts ≠ []) (hpp : p.Proper) (hqp : q.Proper)
    (h : p.toString = q.toString) : p = q := by
  have hroot : p.root = q.root := by
    refine String.toList_injective ?_
    rw [← takeWhile_toString hp hpp, h, takeWhile_toString hq hqp]
  have hbody : joinWith "/" p.parts = joinWith "/" q.parts := by
    rw [toString_eq hp hpp, toString_eq hq hqp, hroot] at h
    exact String.append_right_inj _ |>.1 h
  have hparts : p.parts = q.parts := by
    rw [← splitFrom_joinWith hp fun part hpart => (hpp.parts part hpart).2, hbody,
      splitFrom_joinWith hq fun part hpart => (hqp.parts part hpart).2]
  cases p
  cases q
  simp_all

end Path

namespace Disk

variable {d d' : Disk} {folder parts place : List String} {bytes : Bytes}

theorem isFile_iff : d.isFile parts = true ↔ ∃ e ∈ d.entries, e.1 = parts ∧ e.2.isSome = true := by
  unfold isFile content?
  cases hfind : d.entries.find? fun e => e.1 == parts && e.2.isSome with
  | none =>
    simp only [List.find?_eq_none, Bool.and_eq_true, beq_iff_eq, not_and] at hfind
    refine ⟨fun h => absurd h (by simp), ?_⟩
    rintro ⟨e, he, hname, hsome⟩
    exact absurd hsome (hfind e he hname)
  | some e =>
    obtain ⟨hname, hsome⟩ : e.1 = parts ∧ e.2.isSome = true := by
      simpa using List.find?_some hfind
    exact ⟨fun _ => ⟨e, List.mem_of_find?_eq_some hfind, hname, hsome⟩, fun _ => hsome⟩

theorem exists_content (h : d.isFile parts = true) : ∃ bytes, d.content? parts = some bytes :=
  Option.isSome_iff_exists.1 h

def rewritten (parts : List String) (bytes : Bytes) (e : List String × Option Bytes) :
    List String × Option Bytes :=
  if e.1 == parts && e.2.isSome then (parts, some bytes) else e

theorem rewritten_fst (parts : List String) (bytes : Bytes) (e : List String × Option Bytes) :
    (rewritten parts bytes e).1 = e.1 := by
  unfold rewritten
  split
  · rename_i h
    simp_all
  · rfl

theorem rewritten_isSome (parts : List String) (bytes : Bytes) (e : List String × Option Bytes) :
    (rewritten parts bytes e).2.isSome = e.2.isSome := by
  unfold rewritten
  split
  · rename_i h
    simp_all
  · rfl

theorem put_eq (h : d.isFile parts = true) (bytes : Bytes) :
    d.put parts bytes = ⟨d.entries.map (rewritten parts bytes)⟩ :=
  if_pos h

theorem find?_rewritten (d : Disk) (parts place : List String) (bytes : Bytes) :
    (d.entries.map (rewritten parts bytes)).find? (fun e => e.1 == place && e.2.isSome) =
      (d.entries.find? fun e => e.1 == place && e.2.isSome).map (rewritten parts bytes) := by
  simp only [List.find?_map, Function.comp_def, rewritten_fst, rewritten_isSome]

theorem content?_put (d : Disk) (parts : List String) (bytes : Bytes) :
    (d.put parts bytes).content? parts = some bytes := by
  by_cases h : d.isFile parts = true
  · rw [put_eq h, content?, find?_rewritten]
    obtain ⟨e, he, hname, hsome⟩ := isFile_iff.1 h
    cases hfind : d.entries.find? fun e => e.1 == parts && e.2.isSome with
    | none => exact absurd (List.find?_eq_none.1 hfind e he) (by simp [hname, hsome])
    | some e' =>
      have hfound := List.find?_some hfind
      simp only [Option.map_some, Option.bind_some, rewritten, hfound, if_true]
  · have hnone : d.entries.find? (fun e => e.1 == parts && e.2.isSome) = none := by
      refine List.find?_eq_none.2 fun e he hfound => h (isFile_iff.2 ⟨e, he, ?_⟩)
      simpa using hfound
    rw [put, if_neg h, content?, List.find?_append, hnone]
    simp

theorem content?_put_other (d : Disk) (bytes : Bytes) (h : place ≠ parts) :
    (d.put parts bytes).content? place = d.content? place := by
  by_cases hfile : d.isFile parts = true
  · rw [put_eq hfile, content?, find?_rewritten, content?]
    cases hfind : d.entries.find? fun e => e.1 == place && e.2.isSome with
    | none => rfl
    | some e =>
      have hname : e.1 = place := by
        have hfound := List.find?_some hfind
        simp only [Bool.and_eq_true, beq_iff_eq] at hfound
        exact hfound.1
      have hother : (e.1 == parts && e.2.isSome) = false := by simp [hname, h]
      simp only [Option.map_some, Option.bind_some, rewritten, hother, Bool.false_eq_true, if_false]
  · rw [put, if_neg hfile, content?, List.find?_append, content?]
    simp [Ne.symm h]

/-- Two trees with the same files and the same folders. -/
structure SameShape (d d' : Disk) : Prop where
  files : ∀ parts, d'.isFile parts = d.isFile parts
  folders : ∀ parts, d'.isFolder parts = d.isFolder parts

theorem SameShape.refl (d : Disk) : SameShape d d := ⟨fun _ => rfl, fun _ => rfl⟩

theorem SameShape.trans {d'' : Disk} (h : SameShape d d') (h' : SameShape d' d'') :
    SameShape d d'' :=
  ⟨fun parts => (h'.files parts).trans (h.files parts),
    fun parts => (h'.folders parts).trans (h.folders parts)⟩

theorem put_sameShape (h : d.isFile parts = true) (bytes : Bytes) : SameShape d (d.put parts bytes) := by
  rw [put_eq h]
  refine ⟨fun place => ?_, fun place => ?_⟩
  · rw [isFile, content?, find?_rewritten, isFile, content?]
    cases hfind : d.entries.find? fun e => e.1 == place && e.2.isSome with
    | none => rfl
    | some e => exact rewritten_isSome parts bytes e
  · simp only [isFolder, List.any_map, Function.comp_def, rewritten_fst, ← Option.not_isSome,
      rewritten_isSome]

theorem SameShape.follow (h : SameShape d d') (rest : List String) :
    ∀ here, d'.follow here rest = d.follow here rest := by
  induction rest with
  | nil => exact fun here => rfl
  | cons part rest ih =>
    intro here
    simp only [Disk.follow, h.folders, ih]

theorem SameShape.locate (h : SameShape d d') (p : Path) :
    d'.locate folder p = d.locate folder p := by
  simp only [Disk.locate, h.follow]

theorem SameShape.checkFolder (h : SameShape d d') (rest : List String) :
    ∀ here, d'.checkFolder here rest = d.checkFolder here rest := by
  induction rest with
  | nil => exact fun here => by simp only [Disk.checkFolder, h.files]
  | cons part rest ih =>
    intro here
    simp only [Disk.checkFolder, h.files, ih]

def landing (d : Disk) (folder : List String) (p : Path) : Except WriteError (List String) := do
  match p.parts.getLast? with
  | none => .error .isAFolder
  | some last =>
    if !d.isFolder (p.origin folder) then .error .notFound
    let target := enter (← d.checkFolder (p.origin folder) p.parent.parts) last
    if d.isFolder target then .error .isAFolder else return target

theorem writeNew_eq (d : Disk) (folder : List String) (p : Path) (bytes : Bytes) :
    d.writeNew folder p bytes = (d.landing folder p).map fun place => d.put place bytes := by
  unfold writeNew landing
  cases p.parts.getLast? with
  | none => rfl
  | some last =>
    dsimp only
    cases d.isFolder (p.origin folder) with
    | false => rfl
    | true =>
      cases hcheck : d.checkFolder (p.origin folder) p.parent.parts with
      | error e => simp [bind, Except.bind, Except.map]
      | ok here =>
        simp only [bind, Except.bind, pure, Except.pure]
        cases d.isFolder (enter here last) <;> rfl

theorem SameShape.landing (h : SameShape d d') (p : Path) :
    d'.landing folder p = d.landing folder p := by
  simp only [Disk.landing, h.checkFolder, h.folders]

/-- Every component in the tree is a name. -/
def Proper (d : Disk) : Prop := ∀ e ∈ d.entries, ∀ part ∈ e.1, Path.IsPart part ∧ part ≠ ".."

theorem mem_insertParts {x y : List String} {ys : List (List String)} :
    x ∈ insertParts y ys ↔ x = y ∨ x ∈ ys := by
  induction ys with
  | nil => simp [insertParts]
  | cons z zs ih =>
    unfold insertParts
    split
    · simp
    · simp only [List.mem_cons, ih]
      tauto

theorem mem_filesBelow {below : List String} : below ∈ d.filesBelow parts ↔
    ∃ e ∈ d.entries, e.1 = parts ++ below ∧ below ≠ [] ∧ e.2.isSome = true := by
  have hsorted : ∀ (xs acc : List (List String)),
      below ∈ xs.foldl (fun acc x => insertParts x acc) acc ↔ below ∈ acc ∨ below ∈ xs := by
    intro xs
    induction xs with
    | nil => simp
    | cons x xs ih =>
      intro acc
      rw [List.foldl_cons, ih, mem_insertParts, List.mem_cons]
      tauto
  unfold filesBelow
  simp only [hsorted, List.not_mem_nil, false_or, List.mem_filterMap, Option.ite_none_right_eq_some,
    Bool.and_eq_true, decide_eq_true_eq, List.isPrefixOf_iff_prefix, Option.some.injEq]
  refine exists_congr fun e => and_congr_right fun _ => ?_
  constructor
  · rintro ⟨⟨⟨⟨tail, htail⟩, hlonger⟩, hsome⟩, rfl⟩
    rw [← htail] at hlonger ⊢
    simp only [List.length_append, Nat.lt_add_right_iff_pos, List.length_pos_iff] at hlonger
    simpa using ⟨hlonger, hsome⟩
  · rintro ⟨hname, hne, hsome⟩
    rw [hname]
    have hpos := List.length_pos_iff.2 hne
    simpa using ⟨hpos, hsome⟩

theorem isFolder_of_entry {e : List String × Option Bytes} (he : e ∈ d.entries)
    {l r : List String} (hname : e.1 = l ++ r) (hr : r ≠ []) : d.isFolder l = true := by
  unfold isFolder
  rw [Bool.or_eq_true, List.any_eq_true]
  refine .inr ⟨e, he, ?_⟩
  have hpos := List.length_pos_iff.2 hr
  simp [hname, hpos]

theorem follow_append (d : Disk) (more : List String) : ∀ (rest here : List String),
    d.follow here (rest ++ more) = (d.follow here rest).bind fun place => d.follow place more
  | [], here => rfl
  | part :: rest, here => by
    rw [List.cons_append, follow, follow]
    split
    · exact follow_append d more rest _
    · rfl

theorem follow_entry {e : List String × Option Bytes} (hd : d.Proper) (he : e ∈ d.entries)
    (below : List String) : ∀ here, e.1 = here ++ below → d.follow here below = some e.1 := by
  induction below with
  | nil =>
    intro here h
    rw [h, List.append_nil, follow]
  | cons part below ih =>
    intro here h
    have hfolder := isFolder_of_entry he h (by simp)
    have hpart : part ≠ ".." := (hd e he part (by simp [h])).2
    rw [follow, if_pos hfolder, enter, if_neg (by simpa using hpart)]
    exact ih (here ++ [part]) (by simp [h])

end Disk

variable {d : Disk} {folder : List String} {p file : Path}

/-- A source file that is reached is a file of the tree, under a proper path of its own. -/
structure Reached (d : Disk) (folder : List String) (file : Path) : Prop where
  proper : file.Proper
  nonempty : file.parts ≠ []
  found : ∃ place, d.locate folder file = some place ∧ d.isFile place = true

theorem Dialect.parts_ne_nil (h : Dialect.supports p = true) : p.parts ≠ [] := by
  intro hempty
  have hname : p.suffix = "" := by
    rw [Path.suffix, Path.name, hempty]
    decide
  have hnone : suffixes.lookup (lower "") = none := by decide
  simp [Dialect.supports, hname, hnone] at h

theorem sourceFilesAt_reached (hd : d.Proper) (hp : p.Proper) (h : file ∈ sourceFilesAt d folder p) :
    Reached d folder file := by
  unfold sourceFilesAt at h
  cases hplace : d.locate folder p with
  | none => simp [hplace] at h
  | some place =>
    simp only [hplace] at h
    split at h
    · obtain ⟨below, hbelow, hfile⟩ := List.mem_filterMap.1 h
      split at hfile
      · cases hfile
      · cases hfile
        obtain ⟨e, he, hname, hne, hsome⟩ := Disk.mem_filesBelow.1 hbelow
        refine ⟨⟨hp.root, fun part hpart => ?_⟩, by simp [hne], ⟨e.1, ?_, ?_⟩⟩
        · rcases List.mem_append.1 hpart with hpart | hpart
          · exact hp.parts part hpart
          · exact (hd e he part (by simp [hname, hpart])).1
        · have hfollow : d.follow (p.origin folder) p.parts = some place := hplace
          change d.follow (p.origin folder) (p.parts ++ below) = some e.1
          rw [Disk.follow_append, hfollow]
          exact Disk.follow_entry hd he below place hname
        · exact Disk.isFile_iff.2 ⟨e, he, rfl, hsome⟩
    · split at h
      · rename_i hfile
        obtain rfl := List.mem_singleton.1 h
        rw [Bool.and_eq_true] at hfile
        exact ⟨hp, Dialect.parts_ne_nil hfile.2, ⟨place, hplace, hfile.1⟩⟩
      · simp at h

theorem sourceFiles_reached {paths : List Path} (hd : d.Proper) (hp : ∀ p ∈ paths, p.Proper)
    (h : file ∈ sourceFiles d paths folder) : Reached d folder file := by
  obtain ⟨p, hmem, h⟩ := List.mem_flatMap.1 h
  exact sourceFilesAt_reached hd (hp p hmem) h

theorem Reached.toString_inj {file' : Path} (h : Reached d folder file)
    (h' : Reached d folder file') (hname : file.toString = file'.toString) : file = file' :=
  Path.toString_inj h.nonempty h'.nonempty h.proper h'.proper hname

end OrmCodemod
