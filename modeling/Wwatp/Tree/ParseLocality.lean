import Wwatp.Tree.Parse

/-! Reading a tree node does not depend on what follows its text. -/
namespace Wwatp

open Cxx Cxx.Reader

variable {α : Type}

theorem local_readMaybe {value : Reader α} (hValue : Local value) : Local (readMaybe value) :=
  (local_word _).bind fun _ => .ite (.pure _) (hValue.bind fun _ => .pure _)

theorem local_readLengthString : Local readLengthString :=
  (local_word _).bind fun _ => (local_unsigned 10 64).bind fun _ => (local_written _).bind fun _ =>
    (local_word _).bind fun _ => local_get.bind fun _ =>
      .orThrow ((local_read _).bind fun _ => local_get.bind fun _ => .pure _)

theorem local_readVersion : Local readVersion :=
  (local_word _).bind fun _ => (local_unsigned 10 16).bind fun _ => (local_word _).bind fun _ =>
    (local_unsigned 10 16).bind fun _ => (local_word _).bind fun _ => (local_word _).bind fun _ =>
      (local_word _).bind fun _ => (local_readMaybe (local_word _)).bind fun _ =>
        (local_word _).bind fun _ => (local_readMaybe (local_word _)).bind fun _ =>
          (local_word _).bind fun _ => (local_readMaybe (local_word _)).bind fun _ =>
            (local_word _).bind fun _ =>
              (local_readMaybe ((local_int 10).bind local_written)).bind fun _ =>
                local_get.bind fun _ => .pure _

theorem local_skipSpace : Local skipSpace :=
  local_peek.bind fun _ => .ite (local_get.bind fun _ => .pure _) (.pure _)

theorem local_readPropertyInfo : Local readPropertyInfo :=
  (local_word _).bind fun _ => (local_word _).bind fun _ => (Local.lift _).bind fun _ =>
    (Local.lift _).bind fun _ => (Local.lift _).bind fun _ => local_skipSpace.bind fun _ => .pure _

theorem local_readChildName : Local readChildName :=
  (local_word _).bind fun _ => (Local.lift _).bind fun _ => local_skipSpace.bind fun _ => .pure _

theorem local_readNonSpaceFuel (fuel count : ℕ) : Local (readNonSpaceFuel fuel count) := by
  induction fuel generalizing count with
  | zero =>
      cases count with
      | zero => exact .pure _
      | succ count => exact .throw _
  | succ fuel ih =>
      cases count with
      | zero => exact .pure _
      | succ count =>
          refine local_get.bind fun c => ?_
          cases c with
          | none => exact .pure _
          | some c => exact .ite (ih _) ((ih _).bind fun _ => .pure _)

theorem readNonSpaceFuel_mono {fuel more count : ℕ} (hFuel : fuel ≤ more) {s s' : IStream}
    {bytes : Str} (h : readNonSpaceFuel fuel count s = .ok (bytes, s')) :
    readNonSpaceFuel more count s = .ok (bytes, s') := by
  induction fuel generalizing more count s bytes with
  | zero =>
      cases count with
      | zero => cases more <;> exact h
      | succ count => cases h
  | succ fuel ih =>
      cases count with
      | zero => cases more <;> exact h
      | succ count =>
          cases more with
          | zero => omega
          | succ more =>
              have hLess := Nat.le_of_succ_le_succ hFuel
              obtain ⟨c, middle, hGet, h⟩ := bind_eq_ok.mp h
              refine bind_eq_ok.mpr ⟨c, middle, hGet, ?_⟩
              cases c with
              | none => exact h
              | some c =>
                  simp only at h ⊢
                  split_ifs at h ⊢
                  · exact ih hLess h
                  · obtain ⟨rest, last, hRest, h⟩ := bind_eq_ok.mp h
                    obtain ⟨rfl, rfl⟩ := Prod.mk.inj (Except.ok.inj h)
                    exact bind_eq_ok.mpr ⟨rest, last, ih hLess hRest, rfl⟩

theorem local_readNonSpace (count : ℕ) : Local (readNonSpace count) where
  sticky h hEof := (local_readNonSpaceFuel _ count).sticky h hEof
  append more h hEof := by
    apply readNonSpaceFuel_mono _ ((local_readNonSpaceFuel _ count).append more h hEof)
    simp

theorem local_readHexBytes (total : ℕ) : Local (readHexBytes total) := by
  induction total with
  | zero => exact .pure _
  | succ total ih =>
      exact (local_readNonSpace 2).bind fun _ => .orThrow ((Local.lift _).bind fun _ =>
        ih.bind fun _ => .pure _)

theorem local_readSpan : Local readSpan :=
  (local_word _).bind fun _ => (local_word _).bind fun _ => (local_unsigned 10 16).bind fun _ =>
    (local_word _).bind fun _ => (local_unsigned 10 64).bind fun _ => (local_word _).bind fun _ =>
      (local_unsigned 10 64).bind fun _ => (local_written _).bind fun _ =>
        (local_written _).bind fun _ => (local_word _).bind fun _ => (local_word _).bind fun _ =>
          .orThrow ((local_readHexBytes _).bind fun _ => (local_word _).bind fun _ =>
            .ite (.pure _) (.lift _))

/-- Reading a node stops at the end of its text. -/
theorem local_readNode : Local readNode :=
  (local_word _).bind fun _ => (local_word _).bind fun _ => (local_word _).bind fun _ =>
    local_readLengthString.bind fun _ => (local_word _).bind fun _ => (local_word _).bind fun _ =>
      local_get.bind fun _ => (local_untilPeek local_readPropertyInfo).bind fun _ =>
        (local_word _).bind fun _ => (local_word _).bind fun _ => local_readVersion.bind fun _ =>
          (local_word _).bind fun _ => (local_word _).bind fun _ => (local_word _).bind fun _ =>
            local_get.bind fun _ => (local_untilPeek local_readChildName).bind fun _ =>
              (local_word _).bind fun _ => local_readLengthString.bind fun _ =>
                .orThrow (local_readLengthString.bind fun _ =>
                  .orThrow (local_readSpan.bind fun _ => (local_word _).bind fun _ =>
                    local_get.bind fun _ => .pure _))

end Wwatp
