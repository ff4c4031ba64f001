import Wwatp.Cxx.InputStream

/-! Readers do not depend on what they do not read: a run that does not reach the
end of its stream is the same when more bytes follow. -/
namespace Cxx

namespace IStream

/-- The stream with more bytes behind it. -/
def append (s : IStream) (more : Str) : IStream := { s with rest := s.rest ++ more }

@[simp] theorem append_rest (s : IStream) (more : Str) : (s.append more).rest = s.rest ++ more := rfl

@[simp] theorem append_good (s : IStream) (more : Str) : (s.append more).good = s.good := rfl

@[simp] theorem append_eof (s : IStream) (more : Str) : (s.append more).eof = s.eof := rfl

theorem ofStr_append (s more : Str) : ofStr (s ++ more) = (ofStr s).append more := rfl

theorem eof_false_of_good {s : IStream} (h : s.good = true) : s.eof = false := by
  simp only [good, Bool.and_eq_true, Bool.not_eq_true'] at h
  exact h.1

theorem not_good_of_eof {s : IStream} (h : s.eof = true) : s.good = false := by
  simp [good, h]

/-- What a `sentry` that succeeds does. -/
theorem sentry_eq_true {s s' : IStream} (h : s.sentry = (true, s')) :
    ∃ c rest, s.good = true ∧ s.rest.dropWhile isSpace = c :: rest ∧ s' = { s with rest := c :: rest } := by
  unfold sentry at h
  split_ifs at h with hGood
  · split at h
    · cases h
    · rename_i c rest hRest
      exact ⟨c, rest, hGood, hRest, (Prod.mk.inj h).2.symm⟩
  · cases h

/-- A `sentry` that fails leaves a stream that is not good. -/
theorem sentry_eq_false {s s' : IStream} (h : s.sentry = (false, s')) :
    (s.good = false ∧ s' = s.setFail) ∨ (s.good = true ∧ s' = s.exhaust) := by
  unfold sentry at h
  split_ifs at h with hGood
  · split at h
    · exact .inr ⟨hGood, (Prod.mk.inj h).2.symm⟩
    · cases h
  · exact .inl ⟨by simpa using hGood, (Prod.mk.inj h).2.symm⟩

theorem sentry_append {s s' : IStream} (h : s.sentry = (true, s')) (more : Str) :
    (s.append more).sentry = (true, s'.append more) := by
  obtain ⟨c, rest, hGood, hRest, rfl⟩ := sentry_eq_true h
  have hMore : (s.append more).rest.dropWhile isSpace = c :: (rest ++ more) := by
    rw [append_rest, List.dropWhile_append, hRest]
    rfl
  rw [sentry, append_good, hGood, hMore]
  rfl

theorem sentry_append_of_not_good {s : IStream} (h : s.good = false) (more : Str) :
    (s.append more).sentry = (false, s.setFail.append more) := by
  rw [sentry, append_good, h]
  rfl

end IStream

namespace Reader

open IStream

variable {α β : Type}

/-- A reader whose runs, as long as they stay clear of the end, do not depend on
what follows, and which never leaves the end once it is there. -/
structure Local (r : Reader α) : Prop where
  sticky : ∀ {s a s'}, r s = .ok (a, s') → s.eof = true → s'.eof = true
  append : ∀ {s a s'} (more : Str), r s = .ok (a, s') → s'.eof = false →
    r (s.append more) = .ok (a, s'.append more)

theorem bind_eq_ok {r : Reader α} {f : α → Reader β} {s s' : IStream} {b : β} :
    (r >>= f) s = .ok (b, s') ↔ ∃ a middle, r s = .ok (a, middle) ∧ f a middle = .ok (b, s') := by
  change (r s >>= fun p => f p.1 p.2) = _ ↔ _
  rw [Outcome.bind_eq_ok]
  exact Prod.exists

theorem bind_ok {r : Reader α} {f : α → Reader β} {s middle : IStream} {a : α}
    (h : r s = .ok (a, middle)) : (r >>= f) s = f a middle := by
  change (r s >>= fun p => f p.1 p.2) = _
  rw [h]
  rfl

namespace Local

theorem pure (a : α) : Local (Pure.pure a : Reader α) where
  sticky h hEof := by
    obtain ⟨rfl, rfl⟩ := Prod.mk.inj (Except.ok.inj h)
    exact hEof
  append more h _ := by
    obtain ⟨rfl, rfl⟩ := Prod.mk.inj (Except.ok.inj h)
    rfl

theorem throw (e : Fault) : Local (MonadExcept.throw e : Reader α) where
  sticky h := by cases h
  append more h := by cases h

/-- Readers one after another. -/
theorem bind {r : Reader α} {f : α → Reader β} (hr : Local r) (hf : ∀ a, Local (f a)) :
    Local (r >>= f) where
  sticky h hEof := by
    obtain ⟨a, middle, hFirst, hSecond⟩ := bind_eq_ok.mp h
    exact (hf a).sticky hSecond (hr.sticky hFirst hEof)
  append more h hEof := by
    obtain ⟨a, middle, hFirst, hSecond⟩ := bind_eq_ok.mp h
    have hMiddle : middle.eof = false := by
      by_contra hEnd
      rw [(hf a).sticky hSecond (by simpa using hEnd)] at hEof
      cases hEof
    exact bind_eq_ok.mpr ⟨a, middle.append more, hr.append more hFirst hMiddle,
      (hf a).append more hSecond hEof⟩

theorem ite {p : Prop} [Decidable p] {r r' : Reader α} (hr : Local r) (hr' : Local r') :
    Local (if p then r else r') := by
  split_ifs
  · exact hr
  · exact hr'

/-- A check that throws before the rest is read. -/
theorem orThrow {p : Prop} [Decidable p] {e : Fault} {f : β → Reader α} {r : Reader α}
    (hr : Local r) : Local (if p then MonadExcept.throw e >>= f else r) :=
  .ite (.throw e) hr

theorem lift (x : Outcome α) : Local (liftM x : Reader α) where
  sticky {s a s'} h hEof := by
    obtain ⟨b, -, hb⟩ := Outcome.bind_eq_ok.mp (show (x >>= fun a => Pure.pure (a, s)) = .ok (a, s') from h)
    obtain ⟨-, rfl⟩ := Prod.mk.inj (Except.ok.inj hb)
    exact hEof
  append {s a s'} more h _ := by
    obtain ⟨b, hx, hb⟩ := Outcome.bind_eq_ok.mp (show (x >>= fun a => Pure.pure (a, s)) = .ok (a, s') from h)
    obtain ⟨rfl, rfl⟩ := Prod.mk.inj (Except.ok.inj hb)
    change (x >>= fun a => Pure.pure (a, s.append more)) = _
    rw [hx]
    rfl

end Local

/-- A formatted extraction: the `sentry`, and then a value and a new state from what
is left, which more bytes do not change unless everything was taken. -/
theorem local_of_sentry {r : Reader α} (skipped : α) (value : Str → α)
    (state : IStream → IStream)
    (hr : ∀ s, r s = match s.sentry with
      | (false, s') => .ok (skipped, s')
      | (true, s') => .ok (value s'.rest, state s'))
    (hMore : ∀ s (more : Str), (state s).eof = false →
      value (s.rest ++ more) = value s.rest ∧ state (s.append more) = (state s).append more) :
    Local r where
  sticky {s a s'} h hEof := by
    rw [hr] at h
    have hBad := not_good_of_eof hEof
    simp only [IStream.sentry, hBad, Bool.false_eq_true, if_false] at h
    obtain ⟨-, rfl⟩ := Prod.mk.inj (Except.ok.inj h)
    exact hEof
  append {s a s'} more h hEof := by
    rw [hr] at h ⊢
    rcases hSentry : s.sentry with ⟨_ | _, middle⟩ <;> rw [hSentry] at h
    · obtain ⟨rfl, rfl⟩ := Prod.mk.inj (Except.ok.inj h)
      rcases sentry_eq_false hSentry with ⟨hBad, rfl⟩ | ⟨-, rfl⟩
      · rw [sentry_append_of_not_good hBad]
      · cases hEof
    · obtain ⟨rfl, rfl⟩ := Prod.mk.inj (Except.ok.inj h)
      obtain ⟨hValue, hState⟩ := hMore middle more hEof
      rw [sentry_append hSentry]
      simp only [append_rest, hValue, hState]

theorem readTo_append {s : IStream} {rest : Str} (h : rest ≠ []) (more : Str) :
    (s.append more).readTo (rest ++ more) = (s.readTo rest).append more := by
  have hMore : (rest ++ more).isEmpty = rest.isEmpty := by
    cases rest with
    | nil => exact absurd rfl h
    | cons c rest => rfl
  simp [IStream.readTo, IStream.append, hMore]

theorem local_word (old : Str) : Local (word old) := by
  refine local_of_sentry old (fun rest => rest.takeWhile (!isSpace ·))
    (fun s => s.readTo (s.rest.dropWhile (!isSpace ·))) (fun s => rfl) ?_
  intro s more hEof
  have hLeft : s.rest.dropWhile (!isSpace ·) ≠ [] := by
    intro hNil
    simp [IStream.readTo, hNil] at hEof
  have hShort : (s.rest.takeWhile (!isSpace ·)).length ≠ s.rest.length := by
    intro hAll
    apply hLeft
    have hSplit := congrArg List.length
      (List.takeWhile_append_dropWhile (p := (!isSpace ·)) (l := s.rest))
    rw [List.length_append, hAll] at hSplit
    exact List.length_eq_zero_iff.mp (by omega)
  constructor
  · simp only [List.takeWhile_append, if_neg hShort]
  · simp only [append_rest, List.dropWhile_append, List.isEmpty_iff, if_neg hLeft,
      readTo_append hLeft]

theorem scanDigits_append {base : ℕ} {s : Str} (h : (scanDigits base s).2 ≠ []) (more : Str) :
    scanDigits base (s ++ more) = ((scanDigits base s).1, (scanDigits base s).2 ++ more) := by
  induction s with
  | nil => exact absurd rfl h
  | cons c rest ih =>
      simp only [List.cons_append, scanDigits] at h ⊢
      cases hDigit : digitValue base c with
      | none => rfl
      | some d =>
          rw [hDigit] at h
          simp only [ih h]

/-- A digit scan behind an optional `0x` stops at the same byte when more follow. -/
theorem scanDigits_dropHexMark_append {base : ℕ} {s : Str}
    (h : (scanDigits base (dropHexMark base s)).2 ≠ []) (more : Str) :
    scanDigits base (dropHexMark base (s ++ more)) =
      ((scanDigits base (dropHexMark base s)).1, (scanDigits base (dropHexMark base s)).2 ++ more) := by
  match s with
  | [] => exact absurd rfl h
  | [c] =>
      -- the scan stops at `c`, so `c` is no digit and cannot start a mark
      have hNot : digitValue base c = none := by
        cases hDigit : digitValue base c with
        | none => rfl
        | some d => simp [dropHexMark, scanDigits, hDigit] at h
      have hMark : dropHexMark base ([c] ++ more) = c :: more := by
        cases more with
        | nil => rfl
        | cons x more =>
            refine if_neg ?_
            rintro ⟨rfl, rfl, -⟩
            cases hNot
      rw [hMark]
      simp [dropHexMark, scanDigits, hNot]
  | zero :: x :: rest =>
      have hMark : dropHexMark base (zero :: x :: rest ++ more) =
          dropHexMark base (zero :: x :: rest) ++ more := by
        simp only [List.cons_append, dropHexMark]
        split_ifs <;> rfl
      rw [hMark, scanDigits_append h]

theorem scanNumber_append {base : ℕ} {s : Str} (h : (scanNumber base s).2.2 ≠ []) (more : Str) :
    scanNumber base (s ++ more) =
      ((scanNumber base s).1, (scanNumber base s).2.1, (scanNumber base s).2.2 ++ more) := by
  cases s with
  | nil => exact absurd rfl h
  | cons c rest =>
      rw [List.cons_append]
      simp only [scanNumber] at h ⊢
      split_ifs at h ⊢
      · rw [scanDigits_dropHexMark_append h]
      · rw [scanDigits_dropHexMark_append h]
      · rw [← List.cons_append, scanDigits_dropHexMark_append h]

theorem local_unsigned (base width : ℕ) : Local (unsigned base width) := by
  refine local_of_sentry none
    (fun rest => some (unsignedValue base width (scanNumber base rest).1 (scanNumber base rest).2.1).1)
    (fun s => if (unsignedValue base width (scanNumber base s.rest).1 (scanNumber base s.rest).2.1).2
      then (s.readTo (scanNumber base s.rest).2.2).setFail else s.readTo (scanNumber base s.rest).2.2)
    (fun s => rfl) ?_
  intro s more hEof
  have hLeft : (scanNumber base s.rest).2.2 ≠ [] := by
    intro hNil
    split_ifs at hEof <;> simp [IStream.readTo, IStream.setFail, hNil] at hEof
  simp only [append_rest, scanNumber_append hLeft, readTo_append hLeft, true_and]
  split_ifs <;> rfl

theorem local_int (base : ℕ) : Local (int base) := by
  refine local_of_sentry none
    (fun rest => some (intValue base (scanNumber base rest).1 (scanNumber base rest).2.1).1)
    (fun s => if (intValue base (scanNumber base s.rest).1 (scanNumber base s.rest).2.1).2
      then (s.readTo (scanNumber base s.rest).2.2).setFail else s.readTo (scanNumber base s.rest).2.2)
    (fun s => rfl) ?_
  intro s more hEof
  have hLeft : (scanNumber base s.rest).2.2 ≠ [] := by
    intro hNil
    split_ifs at hEof <;> simp [IStream.readTo, IStream.setFail, hNil] at hEof
  simp only [append_rest, scanNumber_append hLeft, readTo_append hLeft, true_and]
  split_ifs <;> rfl

theorem local_get : Local get where
  sticky h hEof := by
    rw [get_of_not_good (not_good_of_eof hEof)] at h
    obtain ⟨-, rfl⟩ := Prod.mk.inj (Except.ok.inj h)
    exact hEof
  append {s a s'} more h hEof := by
    rcases hGood : s.good with _ | _
    · rw [get_of_not_good hGood] at h
      obtain ⟨rfl, rfl⟩ := Prod.mk.inj (Except.ok.inj h)
      exact get_of_not_good hGood
    · cases hRest : s.rest with
      | nil =>
          rw [get_nil hGood hRest] at h
          obtain ⟨-, rfl⟩ := Prod.mk.inj (Except.ok.inj h)
          cases hEof
      | cons c rest =>
          rw [get_cons hGood hRest] at h
          obtain ⟨rfl, rfl⟩ := Prod.mk.inj (Except.ok.inj h)
          exact get_cons hGood (by rw [append_rest, hRest, List.cons_append])

theorem local_peek : Local peek where
  sticky h hEof := by
    rw [peek_of_not_good (not_good_of_eof hEof)] at h
    obtain ⟨-, rfl⟩ := Prod.mk.inj (Except.ok.inj h)
    exact hEof
  append {s a s'} more h hEof := by
    rcases hGood : s.good with _ | _
    · rw [peek_of_not_good hGood] at h
      obtain ⟨rfl, rfl⟩ := Prod.mk.inj (Except.ok.inj h)
      exact peek_of_not_good hGood
    · cases hRest : s.rest with
      | nil =>
          rw [peek_nil hGood hRest] at h
          obtain ⟨-, rfl⟩ := Prod.mk.inj (Except.ok.inj h)
          cases hEof
      | cons c rest =>
          rw [peek_cons hGood hRest] at h
          obtain ⟨rfl, rfl⟩ := Prod.mk.inj (Except.ok.inj h)
          exact peek_cons hGood (by rw [append_rest, hRest, List.cons_append])

theorem local_read (count : ℕ) : Local (read count) where
  sticky h hEof := by
    rw [read_of_not_good (not_good_of_eof hEof)] at h
    obtain ⟨-, rfl⟩ := Prod.mk.inj (Except.ok.inj h)
    exact hEof
  append {s a s'} more h hEof := by
    have hSame : (s.append more).good = s.good := rfl
    rcases hGood : s.good with _ | _
    · rw [read_of_not_good hGood] at h
      obtain ⟨rfl, rfl⟩ := Prod.mk.inj (Except.ok.inj h)
      exact read_of_not_good (hSame.trans hGood) count
    · rcases Nat.lt_or_ge s.rest.length count with hShort | hEnough
      · rw [read_of_lt hGood hShort] at h
        obtain ⟨-, rfl⟩ := Prod.mk.inj (Except.ok.inj h)
        cases hEof
      · rw [read_of_le hGood hEnough] at h
        obtain ⟨rfl, rfl⟩ := Prod.mk.inj (Except.ok.inj h)
        have hMore : count ≤ (s.append more).rest.length :=
          Nat.le_trans hEnough (by simp)
        rw [read_of_le (hSame.trans hGood) hMore, append_rest,
          List.take_append_of_le_length hEnough, List.drop_append_of_le_length hEnough]
        rfl

theorem local_written (a : Option α) : Local (written a) := by
  cases a with
  | none => exact .throw _
  | some a => exact .pure a

theorem local_untilPeekFuel {stop : UInt8} {body : Reader α} (hBody : Local body) (fuel : ℕ) :
    Local (untilPeekFuel stop body fuel) := by
  induction fuel with
  | zero => exact .throw _
  | succ fuel ih =>
      exact local_peek.bind fun _ => .ite (.pure _) (hBody.bind fun _ => ih.bind fun _ => .pure _)

/-- More fuel does not change a loop that ends. -/
theorem untilPeekFuel_mono {stop : UInt8} {body : Reader α} {fuel more : ℕ} (hFuel : fuel ≤ more)
    {s s' : IStream} {items : List α} (h : untilPeekFuel stop body fuel s = .ok (items, s')) :
    untilPeekFuel stop body more s = .ok (items, s') := by
  induction fuel generalizing more s items with
  | zero => cases h
  | succ fuel ih =>
      cases more with
      | zero => omega
      | succ more =>
          obtain ⟨next, peeked, hPeek, h⟩ := bind_eq_ok.mp h
          refine bind_eq_ok.mpr ⟨next, peeked, hPeek, ?_⟩
          split_ifs at h ⊢
          · exact h
          · obtain ⟨a, middle, hRound, h⟩ := bind_eq_ok.mp h
            obtain ⟨rest, last, hRest, h⟩ := bind_eq_ok.mp h
            obtain ⟨rfl, rfl⟩ := Prod.mk.inj (Except.ok.inj h)
            exact bind_eq_ok.mpr ⟨a, middle, hRound,
              bind_eq_ok.mpr ⟨rest, last, ih (Nat.le_of_succ_le_succ hFuel) hRest, rfl⟩⟩

theorem local_untilPeek {stop : UInt8} {body : Reader α} (hBody : Local body) :
    Local (untilPeek stop body) where
  sticky h hEof := (local_untilPeekFuel hBody _).sticky h hEof
  append more h hEof := by
    apply untilPeekFuel_mono _ ((local_untilPeekFuel hBody _).append more h hEof)
    simp

end Reader
end Cxx
