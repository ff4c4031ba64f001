import Wwatp.Cxx.StreamText

/-! What extractions from a written text tell about what was written: words, signed numbers, and loops
that read one item after another. -/
namespace Cxx

open IStream

namespace Reader

section Words

variable {old text w : Str} {s' : IStream}

/-- The first word of a text that is not all white space. -/
theorem word_eq (old : Str) (hText : ∃ b ∈ text, isSpace b = false) :
    ∃ s', word old (ofStr text) = .ok ((text.dropWhile isSpace).takeWhile (!isSpace ·), s') := by
  have hRest : text.dropWhile isSpace ≠ [] := by
    intro hNil
    obtain ⟨b, hb, hSpace⟩ := hText
    rw [List.dropWhile_eq_nil_iff] at hNil
    rw [hNil b hb] at hSpace
    cases hSpace
  obtain ⟨c, rest, hCons⟩ := List.exists_cons_of_ne_nil hRest
  have hSentry : (ofStr text).sentry = (true, ofStr (c :: rest)) := by
    simp only [sentry, good_ofStr, if_true]
    simp only [ofStr, hCons]
  refine ⟨(ofStr (c :: rest)).readTo ((c :: rest).dropWhile (!isSpace ·)), ?_⟩
  rw [word, hSentry, hCons]
  rfl

/-- A word that was read has no white space and is not empty. -/
theorem nonspace_of_word (hText : ∃ b ∈ text, isSpace b = false) (h : word old (ofStr text) = .ok (w, s')) :
    w ≠ [] ∧ ∀ b ∈ w, isSpace b = false := by
  obtain ⟨_, hWord⟩ := word_eq old hText
  rw [hWord, Except.ok.injEq, Prod.mk.injEq] at h
  obtain ⟨rfl, -⟩ := h
  constructor
  · intro hNil
    have hRest : text.dropWhile isSpace ≠ [] := by
      rw [Ne, List.dropWhile_eq_nil_iff]
      obtain ⟨b, hb, hSpace⟩ := hText
      intro hAll
      rw [hAll b hb] at hSpace
      cases hSpace
    have hHead := List.head_dropWhile_not isSpace hRest
    obtain ⟨c, rest, hCons⟩ := List.exists_cons_of_ne_nil hRest
    simp only [hCons, List.head_cons] at hHead
    rw [hCons, List.takeWhile_cons_of_pos (by simp [hHead])] at hNil
    cases hNil
  · intro b hb
    simpa using List.mem_takeWhile_imp hb

/-- Reading goes on where the written part ends. -/
theorem Reads.next {α : Type} {r : Reader α} {front tail : Str} {a b : α} (hr : Reads r front tail a)
    (h : r (ofStr (front ++ tail)) = .ok (b, s')) : b = a ∧ s' = ofStr tail := by
  rw [hr, Except.ok.injEq, Prod.mk.injEq] at h
  exact ⟨h.1.symm, h.2.symm⟩

/-- What a reader does after another one that takes what was written for it. -/
theorem Reads.goesOn {α β : Type} {r : Reader α} {f : α → Reader β} {a : α} {front back tail : Str}
    {outcome : Outcome (β × IStream)} (hr : Reads r front (back ++ tail) a) (hf : f a (ofStr (back ++ tail)) = outcome) :
    (r >>= f) (ofStr (front ++ back ++ tail)) = outcome := by
  rw [List.append_assoc, bind_ok hr, hf]

end Words

section Numbers

variable {tail : Str}

theorem dropHexMark_decimal (s : Str) : dropHexMark 10 s = s := by
  unfold dropHexMark
  split
  · simp
  · rfl

/-- An `int` whose digits are scanned up to the white space behind them. -/
theorem int_of_scan {spaces text : Str} {c : UInt8} {negative : Bool} {digits : List ℕ} {value : Int32}
    (hSpaces : ∀ b ∈ spaces, isSpace b = true) (hc : isSpace c = false)
    (hScan : scanNumber 10 (c :: text ++ tail) = (negative, digits, tail))
    (hValue : intValue 10 negative digits = (value, false)) (hTail : BlankFirst tail) :
    Reads (int 10) (spaces ++ c :: text) tail (some value) := by
  obtain ⟨blank, rest, rfl, -⟩ := hTail.exists_cons
  have hSentry : (ofStr (spaces ++ c :: text ++ blank :: rest)).sentry = (true, ofStr (c :: text ++ blank :: rest)) := by
    rw [List.append_assoc]
    exact sentry_ofStr hSpaces hc
  rw [Reads, int, hSentry]
  simp only [ofStr, hScan, hValue]
  rfl

variable {spaces : Str} {n : ℕ}

/-- The digits of a decimal number as they are scanned. -/
theorem scanDigits_toDecimal (hTail : BlankFirst tail) :
    scanDigits 10 (toDecimal n ++ tail) = (digitsOf 10 n, tail) := by
  obtain ⟨blank, rest, rfl, hBlank⟩ := hTail.exists_cons
  rw [toDecimal, toBase_eq]
  refine scanDigits_digits (by decide) _ (digitsOf_lt (by decide)) _ ?_
  intro c hc
  rw [List.head?_cons, Option.mem_def, Option.some.injEq] at hc
  exact hc ▸ digitValue_of_isSpace hBlank

theorem reads_int (hLess : n < 2 ^ 31) (hSpaces : ∀ b ∈ spaces, isSpace b = true) (hTail : BlankFirst tail) :
    Reads (int 10) (spaces ++ toDecimal n) tail (some (Int32.ofInt n)) := by
  have hDigits := digitsOf_ne_nil 10 n
  have hLt : ∀ d ∈ digitsOf 10 n, d < 10 := digitsOf_lt (by decide)
  have hScan : scanNumber 10 (toDecimal n ++ tail) = (false, digitsOf 10 n, tail) := by
    obtain ⟨blank, rest, rfl, hBlank⟩ := hTail.exists_cons
    rw [toDecimal, toBase_eq]
    exact scanNumber_digits (by decide) hDigits hLt (by simpa using hBlank)
  have hValue : intValue 10 false (digitsOf 10 n) = (Int32.ofInt n, false) := by
    simpa [intValue, hDigits, valueOf_digitsOf] using hLess
  obtain ⟨d, more, hCons⟩ := List.exists_cons_of_ne_nil hDigits
  have hText : toDecimal n = digitChar d :: more.map digitChar := by
    rw [toDecimal, toBase_eq, hCons, List.map_cons]
  have hd : d < 16 := lt_trans (hLt d (by rw [hCons]; exact List.mem_cons_self)) (by decide)
  rw [hText] at hScan ⊢
  exact int_of_scan hSpaces (digitChar_not_space hd) hScan hValue hTail

theorem reads_negativeInt (hLe : n ≤ 2 ^ 31) (hSpaces : ∀ b ∈ spaces, isSpace b = true) (hTail : BlankFirst tail) :
    Reads (int 10) (spaces ++ chr '-' :: toDecimal n) tail (some (Int32.ofInt (-n))) := by
  have hScan : scanNumber 10 (chr '-' :: toDecimal n ++ tail) = (true, digitsOf 10 n, tail) := by
    rw [List.cons_append, scanNumber, if_pos rfl, dropHexMark_decimal, scanDigits_toDecimal hTail]
  have hValue : intValue 10 true (digitsOf 10 n) = (Int32.ofInt (-n), false) := by
    simpa [intValue, digitsOf_ne_nil, valueOf_digitsOf] using hLe
  exact int_of_scan hSpaces (by decide) hScan hValue hTail

end Numbers

section Loops

variable {α : Type} {stop : UInt8} {body : Reader α} {write : α → Str} {Good : α → Prop} {items : List α} {tail : Str}

/-- A loop reads the items that were written in front of its end mark. -/
theorem reads_untilPeek (hRound : ∀ a tail, Good a → Reads body (write a) tail a)
    (hFirst : ∀ a, Good a → ∃ c rest, write a = c :: rest ∧ c ≠ stop) (hItems : ∀ a ∈ items, Good a)
    (hTail : tail.head? = some stop) : Reads (untilPeek stop body) (items.flatMap write) tail items := by
  have hFuel : untilPeekFuel stop body (items.length + 1) (ofStr (items.flatMap write ++ tail)) = .ok (items, ofStr tail) := by
    induction items with
    | nil =>
        obtain ⟨rest, rfl⟩ := List.head?_eq_some_iff.mp hTail
        rw [List.flatMap_nil, List.nil_append, List.length_nil, untilPeekFuel, bind_ok (peek_ofStr stop rest), if_pos rfl]
        rfl
    | cons a items ih =>
        obtain ⟨ha, hRest⟩ := List.forall_mem_cons.mp hItems
        obtain ⟨c, rest, hText, hc⟩ := hFirst a ha
        have hPeek : peek (ofStr ((a :: items).flatMap write ++ tail)) =
            .ok (some c, ofStr ((a :: items).flatMap write ++ tail)) := by
          rw [List.flatMap_cons, hText]
          rfl
        have hBody : body (ofStr ((a :: items).flatMap write ++ tail)) = .ok (a, ofStr (items.flatMap write ++ tail)) := by
          rw [List.flatMap_cons, List.append_assoc]
          exact hRound a _ ha
        rw [List.length_cons, untilPeekFuel, bind_ok hPeek, if_neg (by simpa using hc), bind_ok hBody, bind_ok (ih hRest)]
        rfl
  have hLength : items.length ≤ (items.flatMap write).length := by
    clear hFuel
    induction items with
    | nil => simp
    | cons a items ih =>
        obtain ⟨ha, hRest⟩ := List.forall_mem_cons.mp hItems
        obtain ⟨c, rest, hText, -⟩ := hFirst a ha
        have hMore := ih hRest
        simp only [List.flatMap_cons, List.length_append, List.length_cons, hText]
        omega
  refine untilPeekFuel_mono ?_ hFuel
  show _ ≤ (items.flatMap write ++ tail).length + 1
  rw [List.length_append]
  omega

/-- A loop that gives back the items has read each of them where it was written. -/
theorem good_of_untilPeek (hRound : ∀ a tail, Good a → Reads body (write a) tail a) (hWrite : ∀ a, write a ≠ [])
    (hGood : ∀ a tail s', (write a).head? ≠ some stop → body (ofStr (write a ++ tail)) = .ok (a, s') → Good a)
    {s' : IStream} (h : untilPeek stop body (ofStr (items.flatMap write ++ tail)) = .ok (items, s')) :
    ∀ a ∈ items, Good a := by
  rw [untilPeek] at h
  generalize (ofStr (items.flatMap write ++ tail)).rest.length + 1 = fuel at h
  induction items generalizing fuel with
  | nil => simp
  | cons a items ih =>
      cases fuel with
      | zero => cases h
      | succ fuel =>
          obtain ⟨c, rest, hText⟩ := List.exists_cons_of_ne_nil (hWrite a)
          have hPeek : peek (ofStr ((a :: items).flatMap write ++ tail)) =
              .ok (some c, ofStr ((a :: items).flatMap write ++ tail)) := by
            rw [List.flatMap_cons, hText]
            rfl
          rw [untilPeekFuel, bind_ok hPeek] at h
          split_ifs at h with hStop
          · cases h
          · obtain ⟨first, middle, hFirst, h⟩ := bind_eq_ok.mp h
            obtain ⟨others, last, hOthers, h⟩ := bind_eq_ok.mp h
            obtain ⟨hItems, rfl⟩ := Prod.mk.inj (Except.ok.inj h)
            obtain ⟨rfl, rfl⟩ := List.cons_eq_cons.mp hItems
            rw [List.flatMap_cons, List.append_assoc] at hFirst
            have ha : Good first := hGood first _ middle (by simpa [hText] using hStop) hFirst
            rw [hRound first _ ha, Except.ok.injEq, Prod.mk.injEq] at hFirst
            rw [← hFirst.2] at hOthers
            exact List.forall_mem_cons.mpr ⟨ha, ih fuel hOthers⟩

end Loops

end Reader
end Cxx
