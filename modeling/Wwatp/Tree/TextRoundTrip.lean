import Wwatp.Cxx.ReadBack
import Wwatp.Tree.Parse

/-! What `operator>>` reads from the text that `operator<<` writes. -/
namespace Wwatp

open Cxx Cxx.Reader

/-- A word as the text form can hold it: not empty and without white space. -/
def Nonblank (w : Str) : Prop := w ≠ [] ∧ ∀ b ∈ w, isSpace b = false

instance (w : Str) : Decidable (Nonblank w) :=
  decidable_of_iff (w.isEmpty = false ∧ w.all (!isSpace ·) = true) (by simp [Nonblank])

section

variable {tail : Str}

theorem reads_nonblank (old : Str) {space : UInt8} {w : Str} (hSpace : isSpace space = true)
    (hw : Nonblank w) (hTail : BlankFirst tail) : Reads (word old) (space :: w) tail w :=
  reads_nextWord old hSpace hw.1 hw.2 hTail

/-- A word of the text form itself, where the reader before it stopped. -/
theorem reads_first (label : Str) (hLabel : Nonblank label) (hTail : BlankFirst tail) :
    Reads (word []) label tail label :=
  reads_word [] [] (List.forall_mem_nil _) hLabel.1 hLabel.2 hTail

/-- A word of the text form itself, behind a space. -/
theorem reads_label (label : Str) (hLabel : Nonblank label) (hTail : BlankFirst tail) :
    Reads (word []) (chr ' ' :: label) tail label :=
  reads_nonblank [] (by decide) hLabel hTail

theorem reads_written {α : Type} (a : α) : Reads (written (some a)) [] tail a := rfl

/-- A string with its length in front is read back, whatever it holds. -/
theorem reads_lengthString {spaces label s : Str} (hSpaces : ∀ b ∈ spaces, isSpace b = true)
    (hLabel : Nonblank label) (hLength : s.length < 2 ^ 63 - 1) :
    Reads readLengthString (spaces ++ writeLengthString label s) tail (label, s) := by
  have hText : spaces ++ writeLengthString label s =
      (spaces ++ label) ++ ((str " " ++ toDecimal s.length) ++ ([] ++ (str " :" ++ (str "\n" ++ (s ++ str "\n"))))) := by
    simp only [writeLengthString, List.append_assoc, List.nil_append]
    rfl
  have hFits : s.length < 2 ^ 64 := by omega
  have hPad : s ++ List.replicate (s.length - s.length) 0 = s := by
    rw [Nat.sub_self, List.replicate_zero, List.append_nil]
  rw [hText]
  refine (reads_word [] spaces hSpaces hLabel.1 hLabel.2 (by rfl)).bind ?_
  refine (reads_unsigned hFits (str " ") (by decide +kernel) (by rfl)).bind ?_
  refine (reads_written s.length).bind ?_
  refine (reads_nonblank [] (by decide) (by decide +kernel) (by rfl)).bind ?_
  refine (reads_get (chr '\n')).bind ?_
  rw [if_neg (Nat.not_le.mpr hLength)]
  refine (reads_read s).bind ?_
  simp only [hPad]
  exact (reads_get (chr '\n')).map rfl

theorem reads_nothing {α : Type} (value : Reader α) (hTail : BlankFirst tail) :
    Reads (readMaybe value) (str " Nothing") tail none := by
  rw [readMaybe, ← List.append_nil (str " Nothing")]
  refine (reads_label (str "Nothing") (by decide +kernel) hTail).bind ?_
  exact reads_pure none

/-- An optional word is read back. -/
theorem reads_maybeWord {w : Option Str} (hWord : ∀ s ∈ w, Nonblank s) (hTail : BlankFirst tail) :
    Reads (readMaybe (word [])) (str " " ++ maybeText id w) tail w := by
  cases w with
  | none => exact reads_nothing (word []) hTail
  | some s =>
      have hNe : ¬str "Just" = str "Nothing" := by decide +kernel
      change Reads (readMaybe (word [])) (str " Just" ++ (chr ' ' :: s)) tail (some s)
      refine (reads_label (str "Just") (by decide +kernel) (by rfl)).bind ?_
      rw [if_neg hNe]
      exact (reads_nonblank [] (by decide) (hWord s rfl) hTail).map rfl

/-- An optional number is read back. -/
theorem reads_maybeInt (depth : Option Int32) (hTail : BlankFirst tail) :
    Reads (readMaybe (do written (← int 10))) (str " " ++ maybeText intText depth) tail depth := by
  cases depth with
  | none => exact reads_nothing _ hTail
  | some n =>
      have hNe : ¬str "Just" = str "Nothing" := by decide +kernel
      have hSpace : ∀ b ∈ str " ", isSpace b = true := by decide +kernel
      have hNumber : Reads (int 10) (str " " ++ intText n) tail (some n) := by
        have hLow := n.le_toInt
        have hHigh := n.toInt_lt
        rw [intText]
        split_ifs with hNegative
        · have hValue : Int32.ofInt (-(n.toInt.natAbs : ℤ)) = n := by
            rw [Int.ofNat_natAbs_of_nonpos (by omega), neg_neg, Int32.ofInt_toInt]
          have hRead := reads_negativeInt (show n.toInt.natAbs ≤ 2 ^ 31 by omega) hSpace hTail
          rwa [hValue] at hRead
        · have hValue : Int32.ofInt (n.toInt.natAbs : ℤ) = n := by
            rw [Int.natAbs_of_nonneg (by omega), Int32.ofInt_toInt]
          have hRead := reads_int (show n.toInt.natAbs < 2 ^ 31 by omega) hSpace hTail
          rwa [hValue] at hRead
      change Reads _ (str " Just" ++ (str " " ++ intText n)) tail (some n)
      refine (reads_label (str "Just") (by decide +kernel) (by rfl)).bind ?_
      rw [if_neg hNe, ← List.append_nil (str " " ++ intText n), bind_assoc]
      exact hNumber.bind ((reads_written n).map rfl)

/-- The words of a version, as its text form can hold them. -/
structure TreeNodeVersion.Printable (v : TreeNodeVersion) : Prop where
  policy : Nonblank v.policy
  authorialProof : ∀ s ∈ v.authorialProof, Nonblank s
  authors : ∀ s ∈ v.authors, Nonblank s
  readers : ∀ s ∈ v.readers, Nonblank s

/-- The text of a version behind a space, cut into what the readers take one after another. -/
def versionCuts (v : TreeNodeVersion) : Str :=
  str " Version:" ++ ((str " " ++ toDecimal v.versionNumber.toNat) ++
    (str " Max_Version:" ++ ((str " " ++ toDecimal v.maxVersionSequence.toNat) ++
    (str " Policy:" ++ ((chr ' ' :: v.policy) ++
    (str " Authorial_Proof:" ++ ((str " " ++ maybeText id v.authorialProof) ++
    (str " Authors:" ++ ((str " " ++ maybeText id v.authors) ++
    (str " Readers:" ++ ((str " " ++ maybeText id v.readers) ++
    (str " Collision_Depth:" ++ ((str " " ++ maybeText intText v.collisionDepth) ++ str " ")))))))))))))

theorem versionCuts_eq {v : TreeNodeVersion} {text : Str} (h : v.text = .ok text) : str " " ++ text = versionCuts v := by
  rw [TreeNodeVersion.text] at h
  split_ifs at h
  · obtain rfl := Except.ok.inj h
    rw [versionCuts]
    simp only [List.append_assoc]
    rfl

/-- A version is read back, with the space behind it. -/
theorem reads_version {v : TreeNodeVersion} (hv : v.Printable) {text : Str} (h : v.text = .ok text) :
    Reads readVersion (str " " ++ text) tail v := by
  rw [versionCuts_eq h]
  refine (reads_label (str "Version:") (by decide +kernel) (by rfl)).bind ?_
  refine (reads_unsigned v.versionNumber.toNat_lt (str " ") (by decide +kernel) (by rfl)).bind ?_
  refine (reads_label (str "Max_Version:") (by decide +kernel) (by rfl)).bind ?_
  refine (reads_unsigned v.maxVersionSequence.toNat_lt (str " ") (by decide +kernel) (by rfl)).bind ?_
  refine (reads_label (str "Policy:") (by decide +kernel) (by rfl)).bind ?_
  refine (reads_nonblank _ (by decide) hv.policy (by rfl)).bind ?_
  refine (reads_label (str "Authorial_Proof:") (by decide +kernel) (by rfl)).bind ?_
  refine (reads_maybeWord hv.authorialProof (by rfl)).bind ?_
  refine (reads_label (str "Authors:") (by decide +kernel) (by rfl)).bind ?_
  refine (reads_maybeWord hv.authors (by rfl)).bind ?_
  refine (reads_label (str "Readers:") (by decide +kernel) (by rfl)).bind ?_
  refine (reads_maybeWord hv.readers (by rfl)).bind ?_
  refine (reads_label (str "Collision_Depth:") (by decide +kernel) (by rfl)).bind ?_
  refine (reads_maybeInt v.collisionDepth (by rfl)).bind ?_
  refine (reads_get (chr ' ')).map ?_
  simp

/-- The contents that stand for hidden property data are read as no data. -/
theorem reads_hiddenContents (hTail : BlankFirst tail) :
    Reads readSpan hiddenContentsText.dropLast tail .empty := by
  have hText : hiddenContentsText.dropLast =
      str "shared_span(" ++ (str " signal_type:" ++ ((str " " ++ toDecimal 0) ++
        (str " signal_size:" ++ ((str " " ++ toDecimal 0) ++ (str " data_size:" ++
          ((str " " ++ toDecimal 0) ++ ([] ++ ([] ++ (str " chunk_data:" ++ (str " [" ++
            ([] ++ str "\n])"))))))))))) := by
    decide +kernel
  have hTotal : ¬2 ^ 63 ≤ (0 + 0) % 2 ^ 64 := by decide
  have hNumber (width : ℕ) {tail : Str} (hTail : BlankFirst tail) :
      Reads (unsigned 10 width) (str " " ++ toDecimal 0) tail (some 0) :=
    reads_unsigned (Nat.two_pow_pos width) (str " ") (by decide +kernel) hTail
  rw [hText]
  refine (reads_first (str "shared_span(") (by decide +kernel) (by rfl)).bind ?_
  refine (reads_label (str "signal_type:") (by decide +kernel) (by rfl)).bind ?_
  refine (hNumber 16 (by rfl)).bind ?_
  refine (reads_label (str "signal_size:") (by decide +kernel) (by rfl)).bind ?_
  refine (hNumber 64 (by rfl)).bind ?_
  refine (reads_label (str "data_size:") (by decide +kernel) (by rfl)).bind ?_
  refine (hNumber 64 (by rfl)).bind ?_
  refine (reads_written 0).bind ?_
  refine (reads_written 0).bind ?_
  refine (reads_label (str "chunk_data:") (by decide +kernel) (by rfl)).bind ?_
  refine (reads_label (str "[") (by decide +kernel) (by rfl)).bind ?_
  rw [if_neg hTotal]
  refine (reads_pure []).bind ?_
  have hZero : (0 + 0) % 2 ^ 64 = 0 := rfl
  simp only [if_pos hZero]
  exact (reads_nonblank [] (by decide) (w := str "])") (by decide +kernel) hTail).map rfl

/-- The conversions between two extractions. -/
theorem reads_lift {α : Type} {x : Outcome α} {a : α} (h : x = .ok a) : Reads (liftM x) [] tail a := by
  rw [h]
  rfl

theorem popComma_of_comma (s : Str) : popComma (s ++ [chr ',']) = .ok s := by
  simp [popComma]

/-- A property information that is read back: the type does not end the list, and no comma is taken
from it. -/
structure LegibleInfo (info : PropertyInfo) : Prop where
  type : Nonblank info.1
  first : info.1.head? ≠ some (chr ']')
  last : info.1.getLast? ≠ some (chr ',')
  name : ∀ b ∈ info.2, isSpace b = false

/-- A child name that is read back; it may be empty. -/
structure LegibleChild (child : Str) : Prop where
  first : child.head? ≠ some (chr ']')
  name : ∀ b ∈ child, isSpace b = false

def infoText (info : PropertyInfo) : Str := info.1 ++ str " (" ++ info.2 ++ str "), "

def childText (child : Str) : Str := child ++ str ", "

theorem reads_skipSpace : Reads skipSpace (str " ") tail () := rfl

theorem stripParentheses_text (name : Str) : stripParentheses (str "(" ++ name ++ str ")") = .ok name := by
  have hFront : (str "(" ++ name ++ str ")").head? = some (chr '(') := rfl
  have hBack : (str "(" ++ name ++ str ")").getLast? = some (chr ')') := by
    rw [List.getLast?_append]
    rfl
  have hInner : (str "(" ++ name ++ str ")").drop 1 = name ++ str ")" := rfl
  have hLength : (str "(" ++ name ++ str ")").length - 2 = name.length := by
    have hOne : (str "(").length = 1 ∧ (str ")").length = 1 := by decide +kernel
    rw [List.length_append, List.length_append, hOne.1, hOne.2]
    omega
  rw [stripParentheses, hFront, hBack]
  dsimp only
  rw [if_pos ⟨rfl, rfl⟩, hInner, hLength, List.take_left]

theorem popComma_of_ne {s : Str} (hs : s ≠ []) (h : s.getLast? ≠ some (chr ',')) : popComma s = .ok s := by
  obtain ⟨c, hc⟩ := Option.ne_none_iff_exists'.mp (fun hNone => hs (List.getLast?_eq_none_iff.mp hNone))
  have hComma : c ≠ chr ',' := by
    rintro rfl
    exact h hc
  simp [popComma, hc, hComma]

theorem reads_propertyInfo {info : PropertyInfo} (h : LegibleInfo info) : Reads readPropertyInfo (infoText info) tail info := by
  have hText : infoText info =
      info.1 ++ ((chr ' ' :: (str "(" ++ info.2 ++ str ")" ++ [chr ','])) ++ ([] ++ ([] ++ ([] ++ str " ")))) := by
    simp only [infoText, List.append_assoc, List.cons_append, List.nil_append]
    rfl
  have hName : Nonblank (str "(" ++ info.2 ++ str ")" ++ [chr ',']) := by
    refine ⟨by simp, ?_⟩
    have hMarks : ∀ b ∈ [chr '(', chr ')', chr ','], isSpace b = false := by decide +kernel
    intro b hb
    have hCases : b ∈ [chr '(', chr ')', chr ','] ∨ b ∈ info.2 := by
      rw [List.append_assoc, List.append_assoc, List.mem_append, List.mem_append] at hb
      rcases hb with hOpen | hInner | hClose
      · exact .inl (List.mem_of_mem_head? (by rw [List.mem_singleton.mp hOpen]; rfl))
      · exact .inr hInner
      · exact .inl (List.mem_cons_of_mem _ hClose)
    rcases hCases with hMark | hInner
    · exact hMarks b hMark
    · exact h.name b hInner
  rw [hText]
  refine (reads_first info.1 h.type (by rfl)).bind ?_
  refine (reads_label _ hName (by rfl)).bind ?_
  refine (reads_lift (popComma_of_comma _)).bind ?_
  refine (reads_lift (stripParentheses_text _)).bind ?_
  refine (reads_lift (popComma_of_ne h.type.1 h.last)).bind ?_
  exact reads_skipSpace.map rfl

theorem reads_childName {child : Str} (h : LegibleChild child) : Reads readChildName (childText child) tail child := by
  have hText : childText child = (child ++ [chr ',']) ++ ([] ++ str " ") := by
    simp only [childText, List.append_assoc]
    rfl
  have hComma : isSpace (chr ',') = false := by decide +kernel
  have hWord : Nonblank (child ++ [chr ',']) := by
    refine ⟨by simp, ?_⟩
    intro b hb
    rcases List.mem_append.mp hb with hChild | hLast
    · exact h.name b hChild
    · rw [List.mem_singleton.mp hLast, hComma]
  rw [hText]
  refine (reads_first _ hWord (by rfl)).bind ?_
  refine (reads_lift (popComma_of_comma child)).bind ?_
  exact reads_skipSpace.map rfl

theorem reads_propertyInfos {infos : List PropertyInfo} (h : ∀ info ∈ infos, LegibleInfo info)
    (hTail : tail.head? = some (chr ']')) : Reads (untilPeek (chr ']') readPropertyInfo) (infos.flatMap infoText) tail infos := by
  refine reads_untilPeek (fun info tail hInfo => reads_propertyInfo hInfo) ?_ h hTail
  intro info hInfo
  obtain ⟨c, rest, hCons⟩ := List.exists_cons_of_ne_nil hInfo.type.1
  have hFirst := hInfo.first
  rw [hCons, List.head?_cons, Ne, Option.some.injEq] at hFirst
  exact ⟨c, rest ++ str " (" ++ info.2 ++ str "), ", by rw [infoText, hCons]; rfl, hFirst⟩

theorem reads_childNames {children : List Str} (h : ∀ child ∈ children, LegibleChild child)
    (hTail : tail.head? = some (chr ']')) : Reads (untilPeek (chr ']') readChildName) (children.flatMap childText) tail children := by
  refine reads_untilPeek (fun child tail hChild => reads_childName hChild) ?_ h hTail
  intro child hChild
  cases child with
  | nil => exact ⟨chr ',', str " ", rfl, by decide⟩
  | cons c rest => exact ⟨c, rest ++ str ", ", rfl, by simpa using hChild.first⟩

/-- The nodes whose text is read back. -/
structure TreeNode.Legible (n : TreeNode) : Prop where
  labelRule : Nonblank n.labelRule
  propertyInfos : ∀ info ∈ n.propertyInfos, LegibleInfo info
  version : n.version.Printable
  childNames : ∀ child ∈ n.childNames, LegibleChild child

/-- The texts of a node have lengths that a string can have, and none of the optional ones is empty. -/
structure TreeNode.Storable (n : TreeNode) : Prop where
  description : n.description.length < 2 ^ 63 - 1
  queryHowTo : ∀ s ∈ n.queryHowTo, s ≠ [] ∧ s.length < 2 ^ 63 - 1
  qaSequence : ∀ s ∈ n.qaSequence, s ≠ [] ∧ s.length < 2 ^ 63 - 1

/-- An optional string that is never empty is given by its text. -/
theorem nothingIfEmpty_getD {s : Option Str} (h : ∀ a ∈ s, a ≠ []) : nothingIfEmpty (s.getD []) = s := by
  cases s with
  | none => rfl
  | some a => exact if_neg (h a rfl)

theorem length_getD {s : Option Str} {bound : ℕ} (hBound : 0 < bound) (h : ∀ a ∈ s, a ≠ [] ∧ a.length < bound) :
    (s.getD []).length < bound := by
  cases s with
  | none => exact hBound
  | some a => exact (h a rfl).2

/-- The text of a node, cut into what the readers take one after another. -/
def nodeCuts (n : TreeNode) (version : Str) : Str :=
  str "TreeNode(" ++ ((chr '\n' :: str "label_rule:") ++ ((chr ' ' :: n.labelRule) ++
  ((str "\n" ++ writeLengthString (str "description") n.description) ++
  (str "property_infos:" ++ (str " [" ++ (str " " ++ (n.propertyInfos.flatMap infoText ++ (str "]," ++ (str " version:" ++
  ((str " " ++ version) ++ (str "," ++ (str " child_names:" ++ (str " [" ++ (str " " ++
  (n.childNames.flatMap childText ++ (str "]," ++
  ((str " " ++ writeLengthString (str "query_how_to") (n.queryHowTo.getD [])) ++
  (([] ++ writeLengthString (str "qa_sequence") (n.qaSequence.getD [])) ++
  (hiddenContentsText.dropLast ++ ((chr '\n' :: str ")") ++ str "\n"))))))))))))))))))))

theorem nodeCuts_eq {n : TreeNode} {version : Str} (hVersion : n.version.text = .ok version) :
    n.text = .ok (nodeCuts n version) := by
  have hHidden : hiddenContentsText = hiddenContentsText.dropLast ++ str "\n" := by decide +kernel
  have hInfos : infoText = fun info => info.1 ++ str " (" ++ info.2 ++ str "), " := rfl
  have hChildren : childText = fun child => child ++ str ", " := rfl
  rw [TreeNode.text, hVersion, hHidden, nodeCuts, hInfos, hChildren]
  simp only [Outcome.ok_bind, Outcome.pure_eq_ok, List.append_assoc, List.nil_append]
  rfl

/-- The text of a legible node is read back, whatever follows it. -/
theorem TreeNode.Legible.reads {n : TreeNode} (hn : n.Legible) (hStorable : n.Storable) {version : Str}
    (hVersion : n.version.text = .ok version) :
    Reads readNode (nodeCuts n version) tail { n with propertyData := .empty } := by
  have hQuery := length_getD (by decide) hStorable.queryHowTo
  have hSequence := length_getD (by decide) hStorable.qaSequence
  refine (reads_first (str "TreeNode(") (by decide +kernel) (by rfl)).bind ?_
  refine (reads_nonblank [] (by decide) (w := str "label_rule:") (by decide +kernel) (by rfl)).bind ?_
  refine (reads_label n.labelRule hn.labelRule (by rfl)).bind ?_
  refine (reads_lengthString (by decide +kernel) (by decide +kernel) hStorable.description).bind ?_
  refine (reads_first (str "property_infos:") (by decide +kernel) (by rfl)).bind ?_
  refine (reads_label (str "[") (by decide +kernel) (by rfl)).bind ?_
  refine (reads_get (chr ' ')).bind ?_
  refine (reads_propertyInfos hn.propertyInfos (by rfl)).bind ?_
  refine (reads_first (str "],") (by decide +kernel) (by rfl)).bind ?_
  refine (reads_label (str "version:") (by decide +kernel) (by rfl)).bind ?_
  refine (reads_version hn.version hVersion).bind ?_
  refine (reads_first (str ",") (by decide +kernel) (by rfl)).bind ?_
  refine (reads_label (str "child_names:") (by decide +kernel) (by rfl)).bind ?_
  refine (reads_label (str "[") (by decide +kernel) (by rfl)).bind ?_
  refine (reads_get (chr ' ')).bind ?_
  refine (reads_childNames hn.childNames (by rfl)).bind ?_
  refine (reads_first (str "],") (by decide +kernel) (by rfl)).bind ?_
  refine (reads_lengthString (by decide +kernel) (by decide +kernel) hQuery).bind ?_
  rw [if_neg (not_not_intro rfl)]
  refine (reads_lengthString (List.forall_mem_nil _) (by decide +kernel) hSequence).bind ?_
  rw [if_neg (not_not_intro rfl)]
  refine (reads_hiddenContents (by rfl)).bind ?_
  refine (reads_nonblank [] (by decide) (w := str ")") (by decide +kernel) (by rfl)).bind ?_
  refine (reads_get (chr '\n')).map ?_
  rw [nothingIfEmpty_getD fun a ha => (hStorable.queryHowTo a ha).1,
    nothingIfEmpty_getD fun a ha => (hStorable.qaSequence a ha).1]

/-- The nodes without property infos and children whose words are printable. -/
structure TreeNode.Plain (n : TreeNode) : Prop where
  labelRule : Nonblank n.labelRule
  description : n.description.length < 2 ^ 63 - 1
  propertyInfos : n.propertyInfos = []
  version : n.version.Printable
  collisionDepth : n.version.collisionDepth = none
  childNames : n.childNames = []
  queryHowTo : ∀ s ∈ n.queryHowTo, s ≠ [] ∧ s.length < 2 ^ 63 - 1
  qaSequence : ∀ s ∈ n.qaSequence, s ≠ [] ∧ s.length < 2 ^ 63 - 1

/-- The text of a plain node, cut into what the readers take one after another. -/
def plainText (n : TreeNode) (version : Str) : Str :=
  str "TreeNode(" ++ ((chr '\n' :: str "label_rule:") ++ ((chr ' ' :: n.labelRule) ++
  ((str "\n" ++ writeLengthString (str "description") n.description) ++
  (str "property_infos:" ++ (str " [" ++ (str " " ++ ([] ++ (str "]," ++ (str " version:" ++
  ((str " " ++ version) ++ (str "," ++ (str " child_names:" ++ (str " [" ++ (str " " ++ ([] ++
  (str "]," ++ ((str " " ++ writeLengthString (str "query_how_to") (n.queryHowTo.getD [])) ++
  (([] ++ writeLengthString (str "qa_sequence") (n.qaSequence.getD [])) ++
  (hiddenContentsText.dropLast ++ ((chr '\n' :: str ")") ++ str "\n"))))))))))))))))))))

namespace TreeNode.Plain

variable {n : TreeNode}

theorem legible (hn : n.Plain) : n.Legible where
  labelRule := hn.labelRule
  propertyInfos := by simp [hn.propertyInfos]
  version := hn.version
  childNames := by simp [hn.childNames]

theorem storable (hn : n.Plain) : n.Storable := ⟨hn.description, hn.queryHowTo, hn.qaSequence⟩

theorem nodeCuts_plain (hn : n.Plain) (version : Str) : nodeCuts n version = plainText n version := by
  rw [nodeCuts, plainText, hn.propertyInfos, hn.childNames, List.flatMap_nil, List.flatMap_nil]

theorem text_eq (hn : n.Plain) {version : Str} (hVersion : n.version.text = .ok version) :
    n.text = .ok (plainText n version) := by
  rw [nodeCuts_eq hVersion, hn.nodeCuts_plain]

/-- The text of a plain node is read back up to its end. -/
theorem reads (hn : n.Plain) {version : Str} (hVersion : n.version.text = .ok version) :
    Reads readNode (plainText n version) [] { n with propertyData := .empty } := by
  rw [← hn.nodeCuts_plain]
  exact hn.legible.reads hn.storable hVersion

end TreeNode.Plain

end

end Wwatp
