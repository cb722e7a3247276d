import OrmCodemod.Proofs.Turns

/-! Imports of other modules. What decides whether such an import is left is whether the text of the
repository path stands somewhere in its path, in letters of either case. That is so of every path of the
source library's repositories, and of paths of other modules as well. -/

namespace OrmCodemod

open Syntax Text Pass

theorem Text.someTail_iff {test : List Char → Bool} {cs : List Char} :
    someTail test cs = true ↔ ∃ a b, cs = a ++ b ∧ test b = true := by
  induction cs with
  | nil =>
    refine ⟨fun h => ⟨[], [], rfl, h⟩, ?_⟩
    rintro ⟨a, b, hab, h⟩
    obtain ⟨-, rfl⟩ := List.append_eq_nil_iff.1 hab.symm
    exact h
  | cons c cs ih =>
    rw [someTail, Bool.or_eq_true, ih]
    constructor
    · rintro (h | ⟨a, b, rfl, h⟩)
      · exact ⟨[], c :: cs, rfl, h⟩
      · exact ⟨c :: a, b, rfl, h⟩
    · rintro ⟨a, b, hab, h⟩
      rcases List.cons_eq_append_iff.1 hab with ⟨-, rfl⟩ | ⟨a', -, rfl⟩
      · exact .inl h
      · exact .inr ⟨a', b, rfl, h⟩

namespace Imports

variable {u : SourceUnit} {p : Place} {path : String} {names : List String} {ed ed' : Editor}

def repositoryPath : String := "typeorm/repository"

/-- A path of the source library's repositories: their directory, or one below it. -/
def IsLibraryRepository (path : String) : Prop :=
  path = repositoryPath ∨ repositoryPath.toList ++ ['/'] <+: path.toList

instance (path : String) : Decidable (IsLibraryRepository path) :=
  inferInstanceAs (Decidable (_ ∨ _))

/-- The text of the repository path stands in a path, each letter in either case. -/
def HasRepositoryText (path : String) : Prop :=
  ∃ a word b, path.toList = a ++ word ++ b ∧
    List.Forall₂ (fun c d => Pattern.sameChar true c d = true) repositoryPath.toList word

theorem begins_iff {want tail : List Char} :
    (decide (want.length ≤ tail.length) &&
        (want.zip tail).all fun (c, d) => Pattern.sameChar true c d) = true ↔
      ∃ word b, tail = word ++ b ∧
        List.Forall₂ (fun c d => Pattern.sameChar true c d = true) want word := by
  induction want generalizing tail with
  | nil => simp
  | cons c want ih =>
    cases tail with
    | nil => simp
    | cons d tail =>
      have hlength : (c :: want).length ≤ (d :: tail).length ↔ want.length ≤ tail.length := by simp
      rw [decide_eq_decide.2 hlength, List.zip_cons_cons, List.all_cons, Bool.and_left_comm,
        Bool.and_eq_true, ih]
      constructor
      · rintro ⟨hc, word, b, rfl, hword⟩
        exact ⟨d :: word, b, rfl, .cons hc hword⟩
      · rintro ⟨word, b, htail, hword⟩
        obtain ⟨hd, word, hc, hrest, rfl⟩ := List.forall₂_cons_left_iff.1 hword
        obtain ⟨rfl, rfl⟩ := List.cons.inj htail
        exact ⟨hc, word, b, rfl, hrest⟩

theorem isRepositoryPath_iff : isRepositoryPath path = true ↔ HasRepositoryText path := by
  rw [isRepositoryPath, someTail_iff, HasRepositoryText]
  refine exists_congr fun a => ?_
  constructor
  · rintro ⟨tail, hpath, htail⟩
    obtain ⟨word, b, rfl, hword⟩ := begins_iff.1 htail
    exact ⟨word, b, by rw [hpath, List.append_assoc], hword⟩
  · rintro ⟨word, b, hpath, hword⟩
    exact ⟨word ++ b, by rw [hpath, List.append_assoc], begins_iff.2 ⟨word, b, rfl, hword⟩⟩

theorem IsLibraryRepository.hasText (h : IsLibraryRepository path) : HasRepositoryText path := by
  have hself : List.Forall₂ (fun c d => Pattern.sameChar true c d = true) repositoryPath.toList
      repositoryPath.toList := by
    rw [List.forall₂_same]
    exact fun c _ => by simp [Pattern.sameChar]
  rcases h with rfl | ⟨b, hb⟩
  · exact ⟨[], _, [], by simp, hself⟩
  · exact ⟨[], _, '/' :: b, by simp [← hb], hself⟩

/-- An import of a module without the text stays as it is; at most an advisory comes before it. -/
theorem Alters.spares (hu : u.TopLevel) (hp : p ∈ importStatements u)
    (hother : ∀ path, modulePath? u p.tree = some path →
      ¬isLibrary path ∧ ¬isRepositoryPath path = true)
    (h : Alters u p names ed ed') : ed'.reaching p.start p.stop = ed.reaching p.start p.stop := by
  unfold Alters at h
  split at h
  · rw [h]
  rename_i path hpath
  obtain ⟨hlib, hrepo⟩ := hother path hpath
  obtain ⟨-, -, -, hstatement⟩ := statement_facts hu hp hpath
  rw [if_neg hlib, if_neg hrepo] at h
  split at h
  · obtain ⟨put, hadvised⟩ := h
    rcases Editor.insertCommentBefore_ok hadvised with rfl | hok
    · rfl
    · rw [hstatement] at hok
      exact Editor.reaching_insertAt hok (.inl le_rfl)
  · rw [h]

theorem Alters.removes (hpath : modulePath? u p.tree = some path) (hlib : ¬isLibrary path)
    (hrepo : isRepositoryPath path = true) (h : Alters u p names ed ed') :
    ed.removeStatement p.tree = .ok ed' := by
  unfold Alters at h
  rw [hpath] at h
  dsimp only at h
  rwa [if_neg hlib, if_pos hrepo] at h

/-- A plain import of another module than the two libraries is left or goes, as the text tells. -/
theorem Course.other_import {source : String} {members : Pattern.Regex} {s s1 s2 s' : Session}
    {progress last : Progress} {o : Outcome} (hu : u.Regular)
    (hm : Pattern.parse u.settings.memberPattern = .ok members)
    (hfresh : s.editor = { source := u.source })
    (h : Course u source s s1 progress s2 last s' o) (hp : p ∈ importStatements u)
    (hplain : p.tree.plainImport = true) (hc : p.tree.children ≠ [])
    (hlib : ∀ path, modulePath? u p.tree = some path → ¬isLibrary path) :
    (IsLeft u s'.printed p ↔ ∀ path, modulePath? u p.tree = some path → ¬HasRepositoryText path) ∧
      (IsGone u s'.printed p ↔ ∃ path, modulePath? u p.tree = some path ∧ HasRepositoryText path) := by
  obtain ⟨l, r, hsplit⟩ := List.append_of_mem hp
  obtain ⟨mid, after, hturn⟩ := h.turn hu hm hfresh hsplit hplain hc
  have hleft : (∀ path, modulePath? u p.tree = some path → ¬HasRepositoryText path) →
      IsLeft u s'.printed p := by
    intro hnone
    refine hturn.left hu h hsplit hc ?_
    rw [hturn.alters.spares hu.toTopLevel hp fun path hpath =>
      ⟨hlib path hpath, isRepositoryPath_iff.not.2 (hnone path hpath)⟩]
    exact hturn.free
  have hgone : (∃ path, modulePath? u p.tree = some path ∧ HasRepositoryText path) →
      IsGone u s'.printed p := by
    rintro ⟨path, hpath, htext⟩
    have hrepo := isRepositoryPath_iff.2 htext
    exact hturn.gone hu h hsplit hc (hturn.alters.removes hpath (hlib path hpath) hrepo)
      (hturn.fired (.inr ⟨path, hpath, hrepo⟩))
  -- an import is not both left and gone
  have hnot : IsGone u s'.printed p → ¬IsLeft u s'.printed p := fun h => h.not_left hu.toTopLevel hp hc
  refine ⟨⟨fun h path hpath htext => hnot (hgone ⟨path, hpath, htext⟩) h, hleft⟩, fun h => ?_, hgone⟩
  by_contra hnone
  exact hnot h (hleft fun path hpath htext => hnone ⟨path, hpath, htext⟩)

/-- Imports of other modules than the two libraries. Such an import comes out as it is exactly if its
path does not have the text of the repository path, and else it goes with its line; so do those from the
repositories of the source library. -/
theorem other_imports_left_iff (u : SourceUnit) (hu : u.Regular) (source : String)
    (hsource : u.source = encode source) (members : Pattern.Regex)
    (hm : Pattern.parse u.settings.memberPattern = .ok members) (s : Session)
    (hs : s.editor = { source := u.source }) :
    ∃ s1 progress s2 last s' o, Course u source s s1 progress s2 last s' o ∧
      ∀ p ∈ importStatements u, p.tree.plainImport = true → p.tree.children ≠ [] →
        (∀ path, modulePath? u p.tree = some path → ¬isLibrary path) →
        (IsLeft u s'.printed p ↔
          ∀ path, modulePath? u p.tree = some path → ¬HasRepositoryText path) ∧
        (IsGone u s'.printed p ↔
          ∃ path, modulePath? u p.tree = some path ∧ HasRepositoryText path) ∧
        ∀ path, modulePath? u p.tree = some path → IsLibraryRepository path →
          IsGone u s'.printed p := by
  obtain ⟨s1, progress, s2, last, s', o, hcourse⟩ := exists_course hu hsource hm hs
  refine ⟨s1, progress, s2, last, s', o, hcourse, fun p hp hplain hc hlib => ?_⟩
  obtain ⟨hleft, hgone⟩ := hcourse.other_import hu hm hs hp hplain hc hlib
  exact ⟨hleft, hgone, fun path hpath hlibrary => hgone.2 ⟨path, hpath, hlibrary.hasText⟩⟩

/-- An import of an entity, one of a module below the repositories of the source library, and one whose
path only has the text. -/
def pathsSample : String :=
  "import a from './a.entity';\nimport b from 'typeorm/repository/b';\n" ++
    "import c from './x/TypeORM/Repository';\n"

def pathsUnit : SourceUnit := ⟨encode pathsSample, (parse .typescript pathsSample).root, {}⟩

theorem pathsSample_imports :
    (importStatements pathsUnit).map (fun p => (p.tree.plainImport, p.tree.children.length,
      modulePath? pathsUnit p.tree)) = [(true, 5, some "./a.entity"),
        (true, 5, some "typeorm/repository/b"), (true, 5, some "./x/TypeORM/Repository")] := by
  decide +kernel

theorem other_imports_left_sample : ∃ s1 progress s2 last s' o entity library own,
    Course pathsUnit pathsSample { editor := { source := pathsUnit.source } } s1 progress s2 last s' o ∧
    importStatements pathsUnit = [entity, library, own] ∧
    modulePath? pathsUnit entity.tree = some "./a.entity" ∧ IsLeft pathsUnit s'.printed entity ∧
    modulePath? pathsUnit library.tree = some "typeorm/repository/b" ∧
    IsGone pathsUnit s'.printed library ∧
    modulePath? pathsUnit own.tree = some "./x/TypeORM/Repository" ∧
    IsGone pathsUnit s'.printed own := by
  have himports := pathsSample_imports
  obtain ⟨s1, progress, s2, last, s', o, hcourse, hall⟩ :=
    other_imports_left_iff pathsUnit (parse_sheltered .typescript pathsSample {}).toRegular pathsSample
      (by simp only [pathsUnit]) _ Settings.exists_members.choose_spec { editor := { source := pathsUnit.source } } rfl
  obtain ⟨entity, library, own, hlist⟩ :
      ∃ entity library own, importStatements pathsUnit = [entity, library, own] :=
    List.length_eq_three.1 (by simpa using congrArg List.length himports)
  rw [hlist] at himports
  simp only [List.map_cons, List.map_nil, List.cons.injEq, Prod.mk.injEq, and_true] at himports
  obtain ⟨⟨h1, h2, hentity⟩, ⟨h3, h4, hlibrary⟩, h5, h6, hown⟩ := himports
  have hreached : ∀ {p : Place} {path : String}, p ∈ [entity, library, own] →
      p.tree.plainImport = true → p.tree.children.length = 5 →
      modulePath? pathsUnit p.tree = some path → ¬isLibrary path →
      (¬isRepositoryPath path = true → IsLeft pathsUnit s'.printed p) ∧
        (isRepositoryPath path = true → IsGone pathsUnit s'.printed p) := by
    intro p path hp hplain hlen hpath hlib
    obtain ⟨hleft, hgone, -⟩ := hall p (hlist ▸ hp) hplain (by rintro hnil; simp [hnil] at hlen)
      (by simpa [hpath] using hlib)
    exact ⟨fun h => hleft.2 (by simpa [hpath] using isRepositoryPath_iff.not.1 h),
      fun h => hgone.2 ⟨path, hpath, isRepositoryPath_iff.1 h⟩⟩
  exact ⟨s1, progress, s2, last, s', o, entity, library, own, hcourse, hlist,
    hentity, (hreached (by simp) h1 h2 hentity (by decide)).1 (by decide),
    hlibrary, (hreached (by simp) h3 h4 hlibrary (by decide)).2 (by decide),
    hown, (hreached (by simp) h5 h6 hown (by decide)).2 (by decide)⟩

def ownSample : String :=
  "import \x7b User \x7d from './typeorm/repository/user';\nlet u: User;\n"

def ownUnit : SourceUnit := ⟨encode ownSample, (parse .typescript ownSample).root, {}⟩

theorem ownSample_output :
    (parse .typescript ownSample).broken = false ∧ From ownUnit "./typeorm/repository/user" ∧
    (Outcome.ofSource .typescript {} ownSample none).1.toOption.map (·.output) =
      some "let u: User;\n" := by
  decide +kernel

/-- It is deleted, though its path is none of the libraries and not below their repositories. -/
theorem own_import_deleted_sample : ∃ path o, (parse .typescript ownSample).broken = false ∧
    From ownUnit path ∧ ¬isLibrary path ∧ ¬IsLibraryRepository path ∧
    (Outcome.ofSource .typescript {} ownSample none).1 = .ok o ∧
    ¬path.toList <:+: o.output.toList := by
  obtain ⟨hbroken, himport, hout⟩ := ownSample_output
  obtain ⟨o, ho, hout⟩ := exists_ok_of_map hout
  refine ⟨_, o, hbroken, himport, by decide, by decide, ho, ?_⟩
  rw [hout, Text.infix_iff rfl rfl]
  decide

end Imports

end OrmCodemod
