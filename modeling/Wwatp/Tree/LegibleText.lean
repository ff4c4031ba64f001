import Wwatp.Tree.TextRoundTrip
import Wwatp.Tree.YamlNodes

/-! Exactly which nodes are read back from their text. The lengths in front of the free texts let them hold
anything; labels, types, names and the words of a version end at white space, and the loops over the
property infos and the children end at a bracket. -/
namespace Wwatp

open Cxx Cxx.Reader

section Parts

variable {tail : Str} {s' : IStream}

/-- Somewhere in the text there is a word of the text form itself. -/
theorem exists_nonspace {w : Str} (hw : ∃ b ∈ w, isSpace b = false) (front back : Str) :
    ∃ b ∈ front ++ (w ++ back), isSpace b = false := by
  obtain ⟨b, hb, hSpace⟩ := hw
  exact ⟨b, by simp [hb], hSpace⟩

theorem popComma_eq_ok {s t : Str} (h : popComma s = .ok t) : s = t ∨ s = t ++ [chr ','] := by
  rw [popComma] at h
  cases hLast : s.getLast? with
  | none =>
      rw [hLast] at h
      cases h
  | some c =>
      obtain ⟨front, rfl⟩ := List.getLast?_eq_some_iff.mp hLast
      rw [hLast] at h
      obtain rfl := Except.ok.inj h
      split_ifs with hComma
      · exact .inr (by simp [hComma])
      · exact .inl rfl

/-- A type from which a comma is taken is not the type that was read. -/
theorem getLast?_of_popComma {s : Str} (h : popComma s = .ok s) : s.getLast? ≠ some (chr ',') := by
  intro hLast
  obtain ⟨front, rfl⟩ := List.getLast?_eq_some_iff.mp hLast
  rw [popComma_of_comma, Except.ok.injEq] at h
  simp at h

theorem subset_of_stripParentheses {s t : Str} (h : stripParentheses s = .ok t) : t ⊆ s := by
  rw [stripParentheses] at h
  split at h
  · obtain rfl := Except.ok.inj h
    split_ifs
    · exact fun b hb => List.mem_of_mem_drop (List.mem_of_mem_take hb)
    · exact List.Subset.refl s
  · cases h

theorem subset_of_popComma {s t : Str} (h : popComma s = .ok t) : t ⊆ s := by
  rcases popComma_eq_ok h with rfl | rfl
  · exact List.Subset.refl _
  · exact List.subset_append_left _ _

theorem lift_eq_ok {α : Type} {x : Outcome α} {a : α} {s : IStream} (h : (liftM x : Reader α) s = .ok (a, s')) :
    x = .ok a ∧ s' = s := by
  obtain ⟨b, hx, hb⟩ := Outcome.bind_eq_ok.mp (show (x >>= fun a => pure (a, s)) = .ok (a, s') from h)
  obtain ⟨rfl, rfl⟩ := Prod.mk.inj (Except.ok.inj hb)
  exact ⟨hx, rfl⟩

/-- The first word of a text that starts with white space is not part of what precedes the white space. -/
theorem word_skips {old w text : Str} (hText : ∃ b ∈ text, isSpace b = false)
    (h : word old (.ofStr (chr ' ' :: text)) = .ok (w, s')) : w = (text.dropWhile isSpace).takeWhile (!isSpace ·) := by
  have hSpace : isSpace (chr ' ') = true := by decide
  obtain ⟨b, hb, hNonspace⟩ := hText
  obtain ⟨_, hWord⟩ := word_eq old ⟨b, List.mem_cons_of_mem (chr ' ') hb, hNonspace⟩
  rw [h, Except.ok.injEq, Prod.mk.injEq, List.dropWhile_cons_of_pos hSpace] at hWord
  exact hWord.1

/-- A property information that is read where it was written. -/
theorem legibleInfo_of_read {info : PropertyInfo} (hFirst : (infoText info).head? ≠ some (chr ']'))
    (h : readPropertyInfo (.ofStr (infoText info ++ tail)) = .ok (info, s')) : LegibleInfo info := by
  obtain ⟨type, name⟩ := info
  have hText : infoText (type, name) ++ tail = type ++ (chr ' ' :: (str "(" ++ (name ++ (str "), " ++ tail)))) := by
    simp only [infoText, List.append_assoc]
    rfl
  have hOpen : ∃ b ∈ str "(", isSpace b = false := by decide +kernel
  rw [hText] at h
  obtain ⟨typeWord, middle, hType, h⟩ := bind_eq_ok.mp h
  obtain ⟨nameWord, last, hName, h⟩ := bind_eq_ok.mp h
  obtain ⟨popped, s1, hPopName, h⟩ := bind_eq_ok.mp h
  obtain ⟨stripped, s2, hStrip, h⟩ := bind_eq_ok.mp h
  obtain ⟨poppedType, s3, hPopType, h⟩ := bind_eq_ok.mp h
  obtain ⟨_, s4, -, h⟩ := bind_eq_ok.mp h
  obtain ⟨hInfo, -⟩ := Prod.mk.inj (Except.ok.inj h)
  obtain ⟨rfl, rfl⟩ := Prod.mk.inj hInfo
  obtain ⟨hPopType, -⟩ := lift_eq_ok hPopType
  obtain ⟨hStrip, -⟩ := lift_eq_ok hStrip
  obtain ⟨hPopName, -⟩ := lift_eq_ok hPopName
  have hSomething : ∃ b ∈ poppedType ++ (chr ' ' :: (str "(" ++ (stripped ++ (str "), " ++ tail)))), isSpace b = false := by
    obtain ⟨b, hb, hSpace⟩ := exists_nonspace hOpen [] (stripped ++ (str "), " ++ tail))
    exact ⟨b, List.mem_append_right _ (List.mem_cons_of_mem _ hb), hSpace⟩
  obtain ⟨hTypeWord, hTypeSpace⟩ := nonspace_of_word hSomething hType
  have hNonempty : poppedType ≠ [] := by
    rintro rfl
    -- the word would be the name, and not a comma
    have hWord := word_skips (exists_nonspace hOpen [] _) hType
    rcases popComma_eq_ok hPopType with hNil | hComma
    · exact hTypeWord hNil
    · rw [hComma] at hWord
      have hHead : some (chr ',') = some (chr '(') := congrArg List.head? hWord
      exact absurd hHead (by decide)
  have hBlank : Nonblank poppedType := ⟨hNonempty, fun b hb => hTypeSpace b (subset_of_popComma hPopType hb)⟩
  obtain ⟨rfl, rfl⟩ := (reads_first poppedType hBlank (by rfl)).next hType
  obtain ⟨-, hNameSpace⟩ := nonspace_of_word (exists_nonspace hOpen [chr ' '] _) hName
  refine ⟨hBlank, ?_, getLast?_of_popComma hPopType, ?_⟩
  · rwa [infoText, List.append_assoc, List.append_assoc, List.head?_append_of_ne_nil _ hNonempty] at hFirst
  · exact fun b hb => hNameSpace b (subset_of_popComma hPopName (subset_of_stripParentheses hStrip hb))

/-- A child name that is read where it was written. -/
theorem legibleChild_of_read {child : Str} (hFirst : (childText child).head? ≠ some (chr ']'))
    (h : readChildName (.ofStr (childText child ++ tail)) = .ok (child, s')) : LegibleChild child := by
  have hComma : ∃ b ∈ str ",", isSpace b = false := by decide +kernel
  obtain ⟨word, middle, hWord, h⟩ := bind_eq_ok.mp h
  obtain ⟨popped, s1, hPop, h⟩ := bind_eq_ok.mp h
  obtain ⟨_, s2, -, h⟩ := bind_eq_ok.mp h
  obtain ⟨rfl, -⟩ := Prod.mk.inj (Except.ok.inj h)
  obtain ⟨hPop, -⟩ := lift_eq_ok hPop
  have hText : childText popped ++ tail = popped ++ (str "," ++ (str " " ++ tail)) := by
    simp only [childText, List.append_assoc]
    rfl
  rw [hText] at hWord
  obtain ⟨-, hSpace⟩ := nonspace_of_word (exists_nonspace hComma popped _) hWord
  refine ⟨fun hHead => hFirst ?_, fun b hb => hSpace b (subset_of_popComma hPop hb)⟩
  rw [childText, List.head?_append, hHead]
  rfl

/-- An optional word that is read where it was written. -/
theorem nonblank_of_readMaybe {w : Option Str} (hTail : ∃ b ∈ tail, isSpace b = false) (hBlank : BlankFirst tail)
    (h : readMaybe (word []) (.ofStr (str " " ++ maybeText id w ++ tail)) = .ok (w, s')) :
    (∀ s ∈ w, Nonblank s) ∧ s' = .ofStr tail := by
  have hNonblank : ∀ s ∈ w, Nonblank s := by
    rintro s rfl
    have hNe : ¬str "Just" = str "Nothing" := by decide +kernel
    have hJust : Reads (word []) (str " Just") (chr ' ' :: (s ++ tail)) (str "Just") :=
      reads_label (str "Just") (by decide +kernel) (by rfl)
    have hText : str " " ++ maybeText id (some s) ++ tail = str " Just" ++ (chr ' ' :: (s ++ tail)) := by
      simp only [maybeText, id, List.append_assoc]
      rfl
    rw [hText, readMaybe, bind_ok hJust, if_neg hNe] at h
    obtain ⟨word, middle, hWord, h⟩ := bind_eq_ok.mp h
    obtain ⟨hSame, -⟩ := Prod.mk.inj (Except.ok.inj h)
    obtain rfl := Option.some.inj hSame
    obtain ⟨b, hb, hSpace⟩ := hTail
    exact nonspace_of_word ⟨b, by simp [hb], hSpace⟩ hWord
  exact ⟨hNonblank, ((reads_maybeWord hNonblank hBlank).next h).2⟩

/-- A version that is read where it was written. -/
theorem printable_of_read {v : TreeNodeVersion} {text : Str} (hText : v.text = .ok text)
    (h : readVersion (.ofStr (str " " ++ text ++ tail)) = .ok (v, s')) : v.Printable := by
  rw [versionCuts_eq hText, versionCuts] at h
  simp only [List.append_assoc] at h
  obtain ⟨_, s1, h1, h⟩ := bind_eq_ok.mp h
  obtain ⟨_, s2, h2, h⟩ := bind_eq_ok.mp h
  obtain ⟨_, s3, h3, h⟩ := bind_eq_ok.mp h
  obtain ⟨_, s4, h4, h⟩ := bind_eq_ok.mp h
  obtain ⟨_, s5, h5, h⟩ := bind_eq_ok.mp h
  obtain ⟨policy, s6, hPolicy, h⟩ := bind_eq_ok.mp h
  obtain ⟨_, s7, h7, h⟩ := bind_eq_ok.mp h
  obtain ⟨authorialProof, s8, hProof, h⟩ := bind_eq_ok.mp h
  obtain ⟨_, s9, h9, h⟩ := bind_eq_ok.mp h
  obtain ⟨authors, s10, hAuthors, h⟩ := bind_eq_ok.mp h
  obtain ⟨_, s11, h11, h⟩ := bind_eq_ok.mp h
  obtain ⟨readers, s12, hReaders, h⟩ := bind_eq_ok.mp h
  obtain ⟨_, s13, -, h⟩ := bind_eq_ok.mp h
  obtain ⟨_, s14, -, h⟩ := bind_eq_ok.mp h
  obtain ⟨_, s15, -, h⟩ := bind_eq_ok.mp h
  obtain ⟨hVersion, -⟩ := Prod.mk.inj (Except.ok.inj h)
  obtain rfl : policy = v.policy := congrArg TreeNodeVersion.policy hVersion
  obtain rfl : authorialProof = v.authorialProof := congrArg TreeNodeVersion.authorialProof hVersion
  obtain rfl : authors = v.authors := congrArg TreeNodeVersion.authors hVersion
  obtain rfl : readers = v.readers := congrArg TreeNodeVersion.readers hVersion
  obtain ⟨-, rfl⟩ := Reads.next (reads_label (str "Version:") (by decide +kernel) (by rfl)) h1
  obtain ⟨-, rfl⟩ := Reads.next (reads_unsigned v.versionNumber.toNat_lt (str " ") (by decide +kernel) (by rfl)) h2
  obtain ⟨-, rfl⟩ := Reads.next (reads_label (str "Max_Version:") (by decide +kernel) (by rfl)) h3
  obtain ⟨-, rfl⟩ := Reads.next (reads_unsigned v.maxVersionSequence.toNat_lt (str " ") (by decide +kernel) (by rfl)) h4
  obtain ⟨-, rfl⟩ := Reads.next (reads_label (str "Policy:") (by decide +kernel) (by rfl)) h5
  have hPolicyWord : Nonblank v.policy :=
    nonspace_of_word (exists_nonspace (w := str " Authorial_Proof:") (by decide +kernel) _ _) hPolicy
  obtain ⟨-, rfl⟩ := Reads.next (reads_nonblank _ (by decide) hPolicyWord (by rfl)) hPolicy
  obtain ⟨-, rfl⟩ := Reads.next (reads_label (str "Authorial_Proof:") (by decide +kernel) (by rfl)) h7
  obtain ⟨hProofWord, rfl⟩ := nonblank_of_readMaybe (exists_nonspace (w := str " Authors:") (by decide +kernel) [] _) (by rfl) hProof
  obtain ⟨-, rfl⟩ := Reads.next (reads_label (str "Authors:") (by decide +kernel) (by rfl)) h9
  obtain ⟨hAuthorsWord, rfl⟩ := nonblank_of_readMaybe (exists_nonspace (w := str " Readers:") (by decide +kernel) [] _) (by rfl) hAuthors
  obtain ⟨-, rfl⟩ := Reads.next (reads_label (str "Readers:") (by decide +kernel) (by rfl)) h11
  obtain ⟨hReadersWord, -⟩ := nonblank_of_readMaybe (exists_nonspace (w := str " Collision_Depth:") (by decide +kernel) [] _) (by rfl) hReaders
  exact ⟨hPolicyWord, hProofWord, hAuthorsWord, hReadersWord⟩

theorem infoText_ne_nil (info : PropertyInfo) : infoText info ≠ [] := by
  have hMark : str " (" ≠ [] := by decide +kernel
  simp [infoText, hMark]

theorem childText_ne_nil (child : Str) : childText child ≠ [] := by
  have hMark : str ", " ≠ [] := by decide +kernel
  simp [childText, hMark]

/-- A node that is read from its own text is legible. -/
theorem TreeNode.legible_of_read {n : TreeNode} (hStorable : n.Storable) {version : Str} (hText : n.version.text = .ok version)
    {data : SharedSpan} (h : readNode (.ofStr (nodeCuts n version ++ tail)) = .ok ({ n with propertyData := data }, s')) :
    n.Legible := by
  rw [nodeCuts] at h
  simp only [List.append_assoc] at h
  obtain ⟨_, s1, h1, h⟩ := bind_eq_ok.mp h
  obtain ⟨_, s2, h2, h⟩ := bind_eq_ok.mp h
  obtain ⟨labelRule, s3, hLabel, h⟩ := bind_eq_ok.mp h
  obtain ⟨_, s4, h4, h⟩ := bind_eq_ok.mp h
  obtain ⟨_, s5, h5, h⟩ := bind_eq_ok.mp h
  obtain ⟨_, s6, h6, h⟩ := bind_eq_ok.mp h
  obtain ⟨_, s7, h7, h⟩ := bind_eq_ok.mp h
  obtain ⟨infos, s8, hInfos, h⟩ := bind_eq_ok.mp h
  obtain ⟨_, s9, h9, h⟩ := bind_eq_ok.mp h
  obtain ⟨_, s10, h10, h⟩ := bind_eq_ok.mp h
  obtain ⟨readVersion, s11, hVersion, h⟩ := bind_eq_ok.mp h
  obtain ⟨_, s12, h12, h⟩ := bind_eq_ok.mp h
  obtain ⟨_, s13, h13, h⟩ := bind_eq_ok.mp h
  obtain ⟨_, s14, h14, h⟩ := bind_eq_ok.mp h
  obtain ⟨_, s15, h15, h⟩ := bind_eq_ok.mp h
  obtain ⟨children, s16, hChildren, h⟩ := bind_eq_ok.mp h
  obtain ⟨_, s17, -, h⟩ := bind_eq_ok.mp h
  obtain ⟨query, s18, -, h⟩ := bind_eq_ok.mp h
  split_ifs at h with hQuery
  · cases h
  obtain ⟨sequence, s19, -, h⟩ := bind_eq_ok.mp h
  split_ifs at h with hSequence
  · cases h
  obtain ⟨_, s20, -, h⟩ := bind_eq_ok.mp h
  obtain ⟨_, s21, -, h⟩ := bind_eq_ok.mp h
  obtain ⟨_, s22, -, h⟩ := bind_eq_ok.mp h
  obtain ⟨hNode, -⟩ := Prod.mk.inj (Except.ok.inj h)
  obtain rfl : labelRule = n.labelRule := congrArg TreeNode.labelRule hNode
  obtain rfl : infos = n.propertyInfos := congrArg TreeNode.propertyInfos hNode
  obtain rfl : readVersion = n.version := congrArg TreeNode.version hNode
  obtain rfl : children = n.childNames := congrArg TreeNode.childNames hNode
  obtain ⟨-, rfl⟩ := Reads.next (reads_first (str "TreeNode(") (by decide +kernel) (by rfl)) h1
  obtain ⟨-, rfl⟩ := Reads.next (reads_nonblank [] (by decide) (w := str "label_rule:") (by decide +kernel) (by rfl)) h2
  have hLabelWord : Nonblank n.labelRule :=
    nonspace_of_word (exists_nonspace (w := str "\ndescription") (by decide +kernel) _ _) hLabel
  obtain ⟨-, rfl⟩ := Reads.next (reads_label n.labelRule hLabelWord (by rfl)) hLabel
  have hDescription (tail : Str) :
      Reads readLengthString (str "\n" ++ writeLengthString (str "description") n.description) tail _ :=
    reads_lengthString (by decide +kernel) (by decide +kernel) hStorable.description
  rw [← List.append_assoc] at h4
  obtain ⟨-, rfl⟩ := (hDescription _).next h4
  obtain ⟨-, rfl⟩ := Reads.next (reads_first (str "property_infos:") (by decide +kernel) (by rfl)) h5
  obtain ⟨-, rfl⟩ := Reads.next (reads_label (str "[") (by decide +kernel) (by rfl)) h6
  obtain ⟨-, rfl⟩ := Reads.next (reads_get (chr ' ')) h7
  have hLegibleInfos := good_of_untilPeek (fun info tail hInfo => reads_propertyInfo hInfo) infoText_ne_nil
    (fun info tail s' => legibleInfo_of_read) hInfos
  obtain ⟨-, rfl⟩ := Reads.next (reads_propertyInfos hLegibleInfos (by rfl)) hInfos
  obtain ⟨-, rfl⟩ := Reads.next (reads_first (str "],") (by decide +kernel) (by rfl)) h9
  obtain ⟨-, rfl⟩ := Reads.next (reads_label (str "version:") (by decide +kernel) (by rfl)) h10
  have hPrintable := printable_of_read hText hVersion
  obtain ⟨-, rfl⟩ := Reads.next (reads_version hPrintable hText) hVersion
  obtain ⟨-, rfl⟩ := Reads.next (reads_first (str ",") (by decide +kernel) (by rfl)) h12
  obtain ⟨-, rfl⟩ := Reads.next (reads_label (str "child_names:") (by decide +kernel) (by rfl)) h13
  obtain ⟨-, rfl⟩ := Reads.next (reads_label (str "[") (by decide +kernel) (by rfl)) h14
  obtain ⟨-, rfl⟩ := Reads.next (reads_get (chr ' ')) h15
  have hLegibleChildren := good_of_untilPeek (fun child tail hChild => reads_childName hChild) childText_ne_nil
    (fun child tail s' => legibleChild_of_read) hChildren
  exact ⟨hLabelWord, hLegibleInfos, hPrintable, hLegibleChildren⟩

end Parts

/-- `operator>>` reads back what `operator<<` has written under `hide_contents`, and nothing of what follows. -/
def TreeNode.ReadBack (n : TreeNode) : Prop :=
  ∃ text, n.text = .ok text ∧ ∀ tail, ∃ data, readNode (.ofStr (text ++ tail)) = .ok ({ n with propertyData := data }, .ofStr tail)

/-- A node that the constructor accepts, with texts of lengths that a string can have. -/
structure TreeNode.Constructed (n : TreeNode) : Prop where
  made : ∃ given, TreeNode.make given = .ok n
  description : n.description.length < 2 ^ 63 - 1
  queryHowTo : ∀ s ∈ n.queryHowTo, s.length < 2 ^ 63 - 1
  qaSequence : ∀ s ∈ n.qaSequence, s.length < 2 ^ 63 - 1

namespace TreeNode

variable {n : TreeNode}

/-- The constructor drops empty texts. -/
theorem Constructed.storable (h : n.Constructed) : n.Storable := by
  obtain ⟨given, hMade⟩ := h.made
  rw [make] at hMade
  split_ifs at hMade
  split at hMade
  · cases hMade
  · obtain rfl := Except.ok.inj hMade
    refine ⟨h.description, fun s hs => ⟨?_, h.queryHowTo s hs⟩, fun s hs => ⟨?_, h.qaSequence s hs⟩⟩
    · simpa using (Option.filter_eq_some_iff.mp hs).2
    · simpa using (Option.filter_eq_some_iff.mp hs).2

theorem legible_of_readBack (hStorable : n.Storable) (h : n.ReadBack) : n.Legible := by
  obtain ⟨text, hText, hRead⟩ := h
  obtain ⟨version, hVersion, -⟩ := Outcome.bind_eq_ok.mp hText
  obtain rfl := Except.ok.inj ((nodeCuts_eq hVersion).symm.trans hText)
  obtain ⟨data, hRead⟩ := hRead []
  exact legible_of_read hStorable hVersion hRead

/-- A node that the constructor accepts is read back from its text exactly when its label, its types and
names and the words of its version are legible. -/
theorem readBack_iff (h : n.Constructed) : n.ReadBack ↔ n.Legible := by
  constructor
  · exact legible_of_readBack h.storable
  · intro hLegible
    obtain ⟨version, hVersion⟩ : ∃ text, n.version.text = .ok text := ⟨_, if_neg hLegible.version.policy.1⟩
    exact ⟨_, nodeCuts_eq hVersion, fun tail => ⟨.empty, hLegible.reads h.storable hVersion⟩⟩

/-- The node `A` with one author. -/
def authored (author : Str) : TreeNode := { labelRule := str "A", version := { authors := some author } }

theorem constructed_authored (author : Str) : (authored author).Constructed :=
  ⟨⟨authored author, rfl⟩, show 0 < 2 ^ 63 - 1 by decide, nofun, nofun⟩

theorem readBack_iff_authored : (authored (str "first")).ReadBack ↔ (authored (str "first")).Legible :=
  readBack_iff (constructed_authored (str "first"))

/-- An author with a space in the name shifts what is read. -/
theorem not_readBack_authored : (authored (str "first last")).Constructed ∧ ¬(authored (str "first last")).ReadBack := by
  refine ⟨constructed_authored _, fun h => ?_⟩
  have hLegible := legible_of_readBack (constructed_authored _).storable h
  have hAuthor := (hLegible.version.authors _ rfl).2 (chr ' ') (by decide +kernel)
  exact absurd hAuthor (by decide)

end TreeNode

end Wwatp
