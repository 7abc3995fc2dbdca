import Mathlib.Algebra.Group.Nat.Defs
import Mathlib.Logic.Function.Iterate
import Mathlib.Tactic.Common
import Switchyard.Station.Goose

/-!
# How publishers advance

Between two frames a publisher only bursts. `Advanced n p p'` says that `n`
bursts lead from `p` to `p'`: the status number moves on `n` times, and if there
was a burst, the sequence number restarts and the interval is the shortest one; if
there was none, nothing that a frame shows has changed. `Followed n p p'` allows
frames in between, which count the sequence number up.

* `toNat_iterate_nextStatus`: the status numbers run through 1, …, 2 ^ 32 - 1 in a circle.
* `eq_zero_of_iterate_nextStatus`: within one round no status number comes back.
-/

namespace Switchyard.Goose

/-- Two frames show one configuration and one state of the data. -/
structure Frame.Agrees (f g : Frame) : Prop where
  appId : g.appId = f.appId
  confRev : g.confRev = f.confRev
  datSet : g.datSet = f.datSet
  members : g.members = f.members

namespace Publisher

theorem toNat_nextStatus (a : UInt32) : (nextStatus a).toNat = max ((a.toNat + 1) % 2 ^ 32) 1 := by
  have hsum : (a + 1).toNat = (a.toNat + 1) % 2 ^ 32 := UInt32.toNat_add a 1
  show (if a + 1 ≤ 1 then 1 else a + 1).toNat = _
  by_cases h : a + 1 ≤ 1
  · have hle : (a + 1).toNat ≤ 1 := UInt32.le_iff_toNat_le.1 h
    rw [if_pos h, UInt32.toNat_one]; omega
  · have hlt : ¬ (a + 1).toNat ≤ 1 := fun hle => h (UInt32.le_iff_toNat_le.2 hle)
    rw [if_neg h, hsum]; omega

theorem nextStatus_ne_zero (a : UInt32) : nextStatus a ≠ 0 := by
  intro h
  have := toNat_nextStatus a
  rw [h] at this
  simp only [UInt32.toNat_zero] at this
  omega

/-- **The circle of status numbers.** -/
theorem toNat_iterate_nextStatus {a : UInt32} (ha : a ≠ 0) (n : ℕ) :
    (nextStatus^[n] a).toNat = (a.toNat - 1 + n) % (2 ^ 32 - 1) + 1 := by
  have ha0 : a.toNat ≠ 0 := fun h => ha (UInt32.toNat_inj.1 h)
  have hlt := a.toNat_lt
  induction n with
  | zero => simp only [Function.iterate_zero, id]; omega
  | succ n ih => rw [Function.iterate_succ_apply', toNat_nextStatus, ih]; omega

/-- **No status number comes back within one round.** -/
theorem eq_zero_of_iterate_nextStatus {a : UInt32} {n : ℕ} (hn : n < 2 ^ 32 - 1) (h : nextStatus^[n] a = a) :
    n = 0 := by
  cases n with
  | zero => rfl
  | succ n =>
    have ha : a ≠ 0 := by
      rw [← h, Function.iterate_succ_apply']; exact nextStatus_ne_zero _
    have ha0 : a.toNat ≠ 0 := fun h => ha (UInt32.toNat_inj.1 h)
    have hlt := a.toNat_lt
    have hnat := toNat_iterate_nextStatus ha (n + 1)
    rw [h] at hnat
    omega

/-- `n` bursts, and maybe frames, lead from one state of a publisher to another. -/
structure Followed (n : ℕ) (p p' : Publisher) : Prop where
  ref : p'.ref = p.ref
  status : p'.stNum = nextStatus^[n] p.stNum
  kept : n = 0 → p'.config = p.config ∧ p'.members = p.members

/-- `n` bursts and no frame lead from one state of a publisher to another. -/
structure Advanced (n : ℕ) (p p' : Publisher) : Prop extends Followed n p p' where
  counted : n = 0 → p'.sqNum = p.sqNum
  restarted : 0 < n → p'.sqNum = 0
  held : n = 0 → p'.interval = p.interval
  hastened : 0 < n → p'.interval = p'.config.least

variable {m n : ℕ} {p p' p'' : Publisher}

theorem Followed.refl (p : Publisher) : Followed 0 p p := ⟨rfl, rfl, fun _ => ⟨rfl, rfl⟩⟩

theorem Followed.trans (h : Followed m p p') (h' : Followed n p' p'') : Followed (n + m) p p'' := by
  refine ⟨h'.ref.trans h.ref, ?_, ?_⟩
  · rw [h'.status, h.status, Function.iterate_add_apply]
  · intro h0
    obtain ⟨hc, hm⟩ := h.kept (by omega)
    obtain ⟨hc', hm'⟩ := h'.kept (by omega)
    exact ⟨hc'.trans hc, hm'.trans hm⟩

/-- What the frames do not show, such as whether a publisher is enabled, may change without a burst. -/
theorem Advanced.of_eq (href : p'.ref = p.ref) (hst : p'.stNum = p.stNum) (hsq : p'.sqNum = p.sqNum)
    (hc : p'.config = p.config) (hm : p'.members = p.members) (hi : p'.interval = p.interval) : Advanced 0 p p' :=
  ⟨⟨href, hst, fun _ => ⟨hc, hm⟩⟩, fun _ => hsq, fun h => absurd h (Nat.lt_irrefl 0), fun _ => hi,
    fun h => absurd h (Nat.lt_irrefl 0)⟩

theorem Advanced.refl (p : Publisher) : Advanced 0 p p := .of_eq rfl rfl rfl rfl rfl rfl

theorem Advanced.trans (h : Advanced m p p') (h' : Advanced n p' p'') : Advanced (n + m) p p'' := by
  refine ⟨h.toFollowed.trans h'.toFollowed, ?_, ?_, ?_, ?_⟩
  · intro h0
    exact (h'.counted (by omega)).trans (h.counted (by omega))
  · intro hpos
    rcases Nat.eq_zero_or_pos n with h0 | hn
    · exact (h'.counted h0).trans (h.restarted (by omega))
    · exact h'.restarted hn
  · intro h0
    exact (h'.held (by omega)).trans (h.held (by omega))
  · intro hpos
    rcases Nat.eq_zero_or_pos n with h0 | hn
    · rw [h'.held h0, h.hastened (by omega), (h'.kept h0).1]
    · exact h'.hastened hn

/-- A burst, whatever else of the publisher changes with it. -/
theorem advanced_burst (now : Millis) (href : p'.ref = p.ref) (hst : p'.stNum = p.stNum) :
    Advanced 1 p (p'.burst now) := by
  refine ⟨⟨href, ?_, ?_⟩, ?_, fun _ => rfl, ?_, fun _ => rfl⟩
  · simp [burst, hst]
  · intro h; omega
  · intro h; omega
  · intro h; omega

theorem storeIn_isSome (path : String) (value : Scalar) (l : List Member) :
    (storeIn path value l).isSome = (l.map Member.path).contains path := by
  induction l with
  | nil => rfl
  | cons a l ih =>
    by_cases ha : a.path = path
    · simp [storeIn, ha]
    · have ha' : ¬ path = a.path := fun h => ha h.symm
      simp only [storeIn, if_neg ha, Option.isSome_map, ih]
      simp [ha']

/-- Whether a publisher takes note of an attribute. -/
def hears (p : Publisher) (path : String) : Bool := p.enabled && p.dataset.contains path

/-- **A publisher bursts exactly when it takes note of a change.** -/
theorem advanced_observe (p : Publisher) (path : String) (value : Scalar) (now : Millis) :
    Advanced (if p.hears path then 1 else 0) p (p.observe path value now) := by
  have hsome := storeIn_isSome path value p.members
  unfold observe hears dataset
  rw [← hsome]
  by_cases he : p.enabled = true
  · cases h : storeIn path value p.members with
    | none => simp only [he]; exact .refl p
    | some members => simp only [he]; exact advanced_burst now rfl rfl
  · simp only [he]; exact .refl p

theorem followed_sent (p : Publisher) (now : Millis) : Followed 0 p (p.sent now) :=
  ⟨rfl, rfl, fun _ => ⟨rfl, rfl⟩⟩

/-- **Two frames of a publisher agree if there was no burst between them.** -/
theorem Followed.agrees (h : Followed 0 p p') (now now' : Millis) : (p.frame now).Agrees (p'.frame now') := by
  obtain ⟨hc, hm⟩ := h.kept rfl
  refine ⟨?_, ?_, ?_, hm⟩ <;> simp only [frame, hc]

end Publisher
end Switchyard.Goose
