import Mathlib.Data.List.Basic
import JavaMigration.File.Selection
import JavaMigration.Proofs.Regex.Language
import JavaMigration.Proofs.Text.Lines
import JavaMigration.Proofs.Text.Pieces

/-!
# Sources are no build files

The patterns for build files end with the name of a file, so a path that one of them accepts ends
with that name. No path of a source does.
-/

namespace JavaMigration.File

/-! ## Bytes of a text -/

theorem toList_loop (bs : ByteArray) (i : Nat) (front : List UInt8) :
    ByteArray.toList.loop bs i front = front.reverse ++ bs.data.toList.drop i := by
  fun_induction ByteArray.toList.loop bs i front with
  | case1 i front h ih =>
    have hi : i < bs.data.toList.length := by simpa using h
    rw [ih, List.drop_eq_getElem_cons hi]
    simp [ByteArray.get!, h]
  | case2 i front h =>
    rw [List.drop_eq_nil_of_le (by simpa using Nat.le_of_not_lt h)]
    simp

theorem toList_data (bs : ByteArray) : bs.toList = bs.data.toList :=
  toList_loop bs 0 []

namespace GlobToken

theorem bytes_append (a b : String) : bytes (a ++ b) = bytes a ++ bytes b := by
  unfold bytes
  rw [toList_data, toList_data, toList_data, String.toUTF8_eq_toByteArray, String.toByteArray_append,
    ByteArray.data_append, Array.toList_append, List.map_append]
  rfl

theorem bytes_ofList (cs : List Char) :
    bytes (String.ofList cs) = (cs.map fun c => bytes c.toString).flatten := by
  induction cs with
  | nil => simp [bytes, toList_data]
  | cons c cs ih =>
    rw [List.map_cons, List.flatten_cons, ← ih, ← bytes_append]
    congr 1
    exact String.toList_injective (by simp)

/-! ## Patterns for file names -/

/-- The characters that a pattern takes as they are. -/
def isPlain (c : Char) : Bool := !("?*[\x7b\x7d,\\".toList.contains c)

theorem readFrom_plain {cs : List Char} (hplain : ∀ c ∈ cs, isPlain c) {fuel : Nat}
    (hfuel : cs.length < fuel) (st : ReadState) (hst : st.inBraces = false) (prev : Option Char) :
    readFrom fuel st prev cs = some (st.current.reverse ++ cs.map literal) := by
  induction cs generalizing fuel st prev with
  | nil =>
    cases fuel with
    | zero => cases hfuel
    | succ fuel => simp [readFrom, hst]
  | cons c cs ih =>
    obtain ⟨hc, hcs⟩ := List.forall_mem_cons.mp hplain
    cases fuel with
    | zero => cases hfuel
    | succ fuel =>
      unfold readFrom
      -- Every other branch reads a character that is not plain.
      split <;> try exact absurd hc (by decide)
      have hlength : cs.length < fuel := Nat.lt_of_succ_lt_succ hfuel
      rw [ih hcs hlength (st.push (literal c)) hst]
      simp [ReadState.push]

/-- A pattern for the files of one name in any directory. -/
theorem read_named {name : String} (hname : name ≠ "") (hplain : ∀ c ∈ name.toList, isPlain c) :
    Glob.read ("**/" ++ name) =
      some ⟨.catAll (patterns (.leadingDirs :: name.toList.map literal))⟩ := by
  have htokens : readFrom (("**/" ++ name).length + 1) {} none ("**/" ++ name).toList =
      some (.leadingDirs :: name.toList.map literal) := by
    have hstars : "**/".toList = ['*', '*', '/'] := by decide
    rw [String.toList_append, hstars]
    show readFrom ("**/" ++ name).length (ReadState.push {} .leadingDirs) (some '/') name.toList = _
    have hfuel : name.toList.length < ("**/" ++ name).length := by
      simp only [← String.length_toList, String.toList_append, hstars, List.length_append,
        List.length_cons]
      omega
    rw [readFrom_plain hplain hfuel _ rfl]
    rfl
  unfold Glob.read
  rw [htokens]
  cases hchars : name.toList with
  | nil => exact absurd (String.toList_eq_nil_iff.mp hchars) hname
  | cons c cs => rfl

theorem patterns_literals (cs : List Char) :
    patterns (cs.map literal) = (cs.map fun c => bytes c.toString).map Regex.literal := by
  induction cs with
  | nil => rfl
  | cons c cs ih =>
    rw [List.map_cons, patterns, ih]
    rfl

/-- A path that a pattern for a file name accepts ends with that name. -/
theorem suffix_of_accepts {name path : String} (hname : name ≠ "")
    (hplain : ∀ c ∈ name.toList, isPlain c) {g : Glob} (hread : Glob.read ("**/" ++ name) = some g)
    (haccepts : g.accepts path) : bytes name <:+ bytes path := by
  rw [read_named hname hplain, Option.some.injEq] at hread
  subst hread
  obtain ⟨dirs, file, hpath, -, hfile⟩ := Regex.spells_cat.mp (Regex.spells_of_accepts haccepts)
  change Regex.Spells (.catAll (patterns (name.toList.map literal))) file at hfile
  rw [patterns_literals, Regex.spells_catAll_literals, ← bytes_ofList, String.ofList_toList] at hfile
  exact ⟨dirs, by rw [hpath, hfile]⟩

end GlobToken

/-! ## Extensions -/

/-- Behind a name of a path that is the last one to count there are slashes and dots only. -/
def Trailing (back : List Char) : Prop := ∀ c ∈ back, c = '/' ∨ c = '.'

theorem exists_of_fileName? {path name : String} (h : fileName? path = some name) :
    ∃ front back, path.toList = front ++ name.toList ++ back ∧ Trailing back := by
  obtain ⟨hlast, -⟩ := Option.filter_eq_some_iff.mp h
  unfold components at hlast
  rw [← List.head?_reverse, ← List.filter_reverse, List.head?_filter,
    List.find?_eq_some_iff_append] at hlast
  obtain ⟨-, behind, before, hsplit, hbehind⟩ := hlast
  have hparts : Text.pieces '/' path.toList =
      before.reverse.map String.toList ++ name.toList :: behind.reverse.map String.toList := by
    rw [List.reverse_eq_iff] at hsplit
    have hlists := congrArg (List.map String.toList) hsplit
    simpa [Text.split, Function.comp_def] using hlists
  have htrailing : Trailing ((behind.reverse.map String.toList).flatMap ('/' :: ·)) := by
    intro c hc
    obtain ⟨part, hpart, hc⟩ := List.mem_flatMap.mp hc
    obtain ⟨s, hs, rfl⟩ := List.mem_map.mp hpart
    rcases List.mem_cons.mp hc with rfl | hc
    · exact .inl rfl
    · have hblank := hbehind s (List.mem_reverse.mp hs)
      simp only [Bool.not_eq_true', Bool.and_eq_false_iff, Bool.not_eq_false', String.isEmpty_iff,
        bne_eq_false_iff_eq] at hblank
      rcases hblank with rfl | rfl
      · cases hc
      · exact .inr (by simpa using hc)
  obtain ⟨first, rest, hfirst, hpath⟩ := Text.pieces_eq '/' path.toList
  rw [hfirst] at hparts
  rw [hpath]
  cases hbefore : before.reverse.map String.toList with
  | nil =>
    rw [hbefore] at hparts
    obtain ⟨rfl, rfl⟩ := List.cons.inj hparts
    exact ⟨[], _, rfl, htrailing⟩
  | cons f fs =>
    rw [hbefore] at hparts
    obtain ⟨rfl, rfl⟩ := List.cons.inj hparts
    refine ⟨first ++ fs.flatMap ('/' :: ·) ++ ['/'], _, ?_, htrailing⟩
    simp

theorem exists_of_extension? {path e : String} (h : extension? path = some e) :
    ∃ front back, path.toList = front ++ e.toList ++ back ∧ Trailing back := by
  obtain ⟨name, hname, h⟩ := Option.bind_eq_some_iff.mp h
  obtain ⟨⟨stem, e'⟩, hcut, h⟩ := Option.bind_eq_some_iff.mp h
  obtain ⟨⟨before, last⟩, hlast, hparts⟩ := Option.map_eq_some_iff.mp hcut
  obtain ⟨rfl, rfl⟩ := Prod.mk.inj hparts
  dsimp only at h
  split at h
  · cases h
  · obtain rfl := Option.some.inj h
    obtain ⟨front, back, hpath, hback⟩ := exists_of_fileName? hname
    refine ⟨front ++ before ++ ['.'], back, ?_, hback⟩
    rw [hpath, Text.cutLast_eq hlast]
    simp

/-! ## Last bytes -/

theorem bytes_ascii {c : Char} (h : c.toNat ≤ 127) : GlobToken.bytes c.toString = [c.toNat] := by
  have hencoded : String.utf8EncodeChar c = [UInt8.ofNat c.toNat] := if_pos h
  have hbytes : c.toString.toByteArray = [UInt8.ofNat c.toNat].toByteArray := by
    rw [← hencoded, ← List.utf8Encode_singleton]
    exact String.toByteArray_singleton
  unfold GlobToken.bytes
  rw [toList_data, String.toUTF8_eq_toByteArray, hbytes]
  simp
  omega

theorem toLower_eq_a {c : Char} (h : c.toLower = 'a') : c = 'a' ∨ c = 'A' := by
  unfold Char.toLower at h
  split at h
  · right
    have hval : c.val + ('a'.val - 'A'.val) = 'a'.val := congrArg Char.val h
    exact Char.ext ((UInt32.add_left_inj _).mp hval)
  · exact .inl h

/-- The last byte of a text that ends with a character of ASCII. -/
theorem getLast?_bytes {text : String} {c : Char} (htext : text.toList.getLast? = some c)
    (h : c.toNat ≤ 127) : (GlobToken.bytes text).getLast? = some c.toNat := by
  obtain ⟨front, hfront⟩ := List.getLast?_eq_some_iff.mp htext
  rw [← String.ofList_toList (s := text), hfront, GlobToken.bytes_ofList, List.map_append,
    List.flatten_append, List.map_singleton, bytes_ascii h]
  simp

theorem getLast?_of_extension? {path e : String} {c : Char} (he : extension? path = some e)
    (hc : e.toList.getLast? = some c) :
    ∃ last, path.toList.getLast? = some last ∧ (last = c ∨ last = '/' ∨ last = '.') := by
  obtain ⟨front, back, hpath, hback⟩ := exists_of_extension? he
  rw [hpath, List.append_assoc, List.getLast?_append, List.getLast?_append, hc]
  cases hlast : back.getLast? with
  | none => exact ⟨c, rfl, .inl rfl⟩
  | some last => exact ⟨last, rfl, .inr (hback last (List.mem_of_getLast? hlast))⟩

/-- What the paths of sources end with. -/
def sourceEnds : List Char := ['a', 'A', '/', '.']

theorem getLast?_of_java {path : String}
    (h : Selection.lowered ((extension? path).getD "") = Selection.lowered "java") :
    ∃ c ∈ sourceEnds, path.toList.getLast? = some c := by
  cases hextension : extension? path with
  | none =>
    rw [hextension] at h
    exact absurd h (by decide)
  | some e =>
    rw [hextension] at h
    have hlast : (e.toList.getLast?).map Char.toLower = some 'a' := by
      rw [← List.getLast?_map]
      have hjava : Selection.lowered "java" = ['j', 'a', 'v', 'a'] := by decide
      exact congrArg List.getLast? (h.trans hjava)
    obtain ⟨c, hc, hlower⟩ := Option.map_eq_some_iff.mp hlast
    obtain ⟨last, hpath, hends⟩ := getLast?_of_extension? hextension hc
    refine ⟨last, ?_, hpath⟩
    rcases toLower_eq_a hlower with rfl | rfl <;> rcases hends with rfl | rfl | rfl <;> decide

/-- The path of a source does not end with the name of a build file. -/
theorem not_suffix_of_java {path name : String} {c : Char}
    (hjava : Selection.lowered ((extension? path).getD "") = Selection.lowered "java")
    (hname : name.toList.getLast? = some c) (hascii : c.toNat ≤ 127) (hc : c ∉ sourceEnds) :
    ¬GlobToken.bytes name <:+ GlobToken.bytes path := by
  rintro ⟨front, hfront⟩
  obtain ⟨last, hmem, hlast⟩ := getLast?_of_java hjava
  have hsmall : ∀ d ∈ sourceEnds, d.toNat ≤ 127 := by simp [sourceEnds]
  have hsame : some c.toNat = some last.toNat := by
    rw [← getLast?_bytes hlast (hsmall last hmem), ← hfront, List.getLast?_append,
      getLast?_bytes hname hascii]
    rfl
  rw [Char.toNat_inj.mp (Option.some.inj hsame)] at hc
  exact hc hmem

/-! ## Selections -/

theorem map_eq_of_mapM {α β : Type} {f : α → Option β} {as : List α} {bs : List β}
    (h : as.mapM f = some bs) : as.map f = bs.map some := by
  induction as generalizing bs with
  | nil =>
    obtain rfl := Option.some.inj h
    rfl
  | cons a as ih =>
    rw [List.mapM_cons] at h
    obtain ⟨b, hb, h⟩ := Option.bind_eq_some_iff.mp h
    obtain ⟨bs, hbs, h⟩ := Option.bind_eq_some_iff.mp h
    obtain rfl := Option.some.inj h
    rw [List.map_cons, List.map_cons, hb, ih hbs]

namespace Selection

theorem filter?_eq_ok {s : Selection} {f : Filter} (h : s.filter? = .ok f) :
    f.extensions = s.extensions ∧ s.included.mapM Glob.read = some f.included := by
  unfold filter? at h
  split at h
  · next hincluded _ _ =>
    obtain rfl := Except.ok.inj h
    exact ⟨rfl, hincluded⟩
  · cases h
  · cases h

/-- The patterns of the selection of sources can be read. -/
theorem exists_filter_javaSources : ∃ f, javaSources.filter? = .ok f := by
  obtain ⟨excluded, hexcluded⟩ : ∃ gs, derivedDirectories.mapM Glob.read = some gs :=
    Option.isSome_iff_exists.mp (by decide)
  refine ⟨⟨["java"], [], excluded, []⟩, ?_⟩
  unfold filter?
  rw [show javaSources.excluded.mapM Glob.read = some excluded from hexcluded]
  rfl

theorem exists_collect_javaSources (d : Directory) : ∃ files, javaSources.collect d = .ok files := by
  obtain ⟨f, hf⟩ := exists_filter_javaSources
  unfold collect
  rw [hf]
  exact ⟨_, rfl⟩

theorem lowered_of_accepts {f : Filter} (h : javaSources.filter? = .ok f) {path : String}
    {content : Content} (haccepts : f.accepts path content) :
    lowered ((extension? path).getD "") = lowered "java" := by
  obtain ⟨hextensions, -⟩ := filter?_eq_ok h
  obtain ⟨hpath, -⟩ := Bool.and_eq_true_iff.mp haccepts
  obtain ⟨hextension, -⟩ := Bool.and_eq_true_iff.mp hpath
  rw [Filter.acceptsExtension, hextensions] at hextension
  obtain ⟨e, he, hsame⟩ := List.any_eq_true.mp hextension
  rw [List.mem_singleton.mp he] at hsame
  exact (beq_iff_eq.mp hsame).symm

/-- The names of build files, each with its last character. -/
def buildFileNames : List (String × Char) :=
  [("pom.xml", 'l'), ("build.gradle", 'e'), ("build.gradle.kts", 's')]

theorem suffix_of_accepts {f : Filter} (h : buildFiles.filter? = .ok f) {path : String}
    {content : Content} (haccepts : f.accepts path content) :
    ∃ n ∈ buildFileNames, GlobToken.bytes n.1 <:+ GlobToken.bytes path := by
  obtain ⟨-, hincluded⟩ := filter?_eq_ok h
  obtain ⟨hfile, -⟩ := Bool.and_eq_true_iff.mp haccepts
  obtain ⟨-, hpath⟩ := Bool.and_eq_true_iff.mp hfile
  obtain ⟨hany, -⟩ := Bool.and_eq_true_iff.mp hpath
  have hpatterns : buildFiles.included = buildFileNames.map fun n => "**/" ++ n.1 := by decide
  have hread := map_eq_of_mapM hincluded
  rw [hpatterns, List.map_map] at hread
  rcases Bool.or_eq_true_iff.mp hany with hempty | hany
  · rw [List.isEmpty_iff.mp hempty] at hread
    cases hread
  · obtain ⟨g, hg, haccepts⟩ := List.any_eq_true.mp hany
    obtain ⟨n, hn, hread⟩ := List.mem_map.mp (hread ▸ List.mem_map_of_mem hg)
    have hplain : ∀ n ∈ buildFileNames, n.1 ≠ "" ∧ n.1.toList.all GlobToken.isPlain := by decide
    obtain ⟨hname, hchars⟩ := hplain n hn
    exact ⟨n, hn, GlobToken.suffix_of_accepts hname (List.all_eq_true.mp hchars) hread haccepts⟩

/-- No file is both a source and a build file. -/
theorem not_accepts_of_java {sources builds : Filter} (hsources : javaSources.filter? = .ok sources)
    (hbuilds : buildFiles.filter? = .ok builds) {path : String} {content : Content}
    (h : sources.accepts path content) (content' : Content) : builds.accepts path content' = false := by
  refine Bool.eq_false_iff.mpr fun haccepts => ?_
  obtain ⟨n, hn, hsuffix⟩ := suffix_of_accepts hbuilds haccepts
  have hends : ∀ n ∈ buildFileNames,
      n.1.toList.getLast? = some n.2 ∧ n.2.toNat ≤ 127 ∧ n.2 ∉ sourceEnds := by
    decide
  obtain ⟨hlast, hascii, hnot⟩ := hends n hn
  exact not_suffix_of_java (lowered_of_accepts hsources h) hlast hascii hnot hsuffix

end Selection

end JavaMigration.File
