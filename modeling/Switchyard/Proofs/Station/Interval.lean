import Switchyard.Proofs.Station.Publication

/-!
# The intervals between frames

After the first frame that follows a change, a publisher waits for the shortest
interval; after that, intervals double up to the longest one. A publisher takes a
frame for the first one when its sequence number is 0. This is so in two other
cases: for the first frame of a new publisher, before which the interval is the
longest one, and after every 2 ^ 32 frames without a change, when the sequence number
has gone around. In these cases the interval falls back to the shortest one
(`interval_falls_back`), and in all others the law holds (`interval_law_iff`).

* `Publisher.Paced`: what sequence number and interval are so many frames after a change.
* `Publisher.paced_sent`, `paced_run`: one frame, and a stretch of a history.
-/

namespace Switchyard

theorem Millis.toNat_double (a : Millis) : (Millis.double a).toNat = min (2 * a.toNat) (2 ^ 64 - 1) := by
  have hlt := a.toNat_lt
  have hsum : (a + a).toNat = (2 * a.toNat) % 2 ^ 64 := by rw [UInt64.toNat_add, Nat.two_mul]
  unfold double plus
  split
  · rename_i h
    have hwraps := UInt64.lt_iff_toNat_lt.1 h
    have hlast : (UInt64.ofNat (UInt64.size - 1)).toNat = 2 ^ 64 - 1 := rfl
    omega
  · rename_i h
    have hfits := mt UInt64.lt_iff_toNat_lt.2 h
    omega

namespace Goose

theorem Config.one_le_least (c : Config) : 1 ≤ c.least.toNat := by
  rw [least, UInt64.toNat_max, UInt64.toNat_one]
  exact Nat.le_max_right _ _

theorem Config.least_le_most (c : Config) : c.least.toNat ≤ c.most.toNat := by
  rw [most, UInt64.toNat_max]
  exact Nat.le_max_right _ _

namespace Publisher

variable {p p' : Publisher} {n : ℕ} {hurried : Prop}

/-- **The pace of a publisher**, `n` frames after the event that has started it: a burst, which makes it hurry, or
its registration. -/
structure Paced (hurried : Prop) (n : ℕ) (p : Publisher) : Prop where
  counted : p.sqNum.toNat = n % 2 ^ 32
  least_le : p.config.least.toNat ≤ p.interval.toNat
  le_most : p.interval.toNat ≤ p.config.most.toNat
  hurries : n = 0 → hurried → p.interval = p.config.least
  waits : n = 0 → ¬ hurried → p.interval = p.config.most
  /-- But for the frames that count as the first ones, the interval has grown, if it can. -/
  grown : n ≠ 0 → n % 2 ^ 32 ≠ 1 →
    p.config.least.toNat < p.interval.toNat ∨ p.config.least.toNat = p.config.most.toNat

theorem Paced.sqNum_eq_zero_iff (h : Paced hurried n p) : p.sqNum = 0 ↔ 2 ^ 32 ∣ n := by
  rw [Nat.dvd_iff_mod_eq_zero, ← h.counted, ← UInt32.toNat_inj, UInt32.toNat_zero]

/-- Without a burst and without a frame a publisher keeps its pace. -/
theorem Paced.advanced (h : Paced hurried n p) (hadv : Advanced 0 p p') : Paced hurried n p' := by
  obtain ⟨hcounted, hleast, hmost, hhurries, hwaits, hgrown⟩ := h
  have hc := (hadv.kept rfl).1
  have hi := hadv.held rfl
  rw [← hadv.counted rfl] at hcounted
  rw [← hc, ← hi] at hleast hmost hhurries hwaits hgrown
  exact ⟨hcounted, hleast, hmost, hhurries, hwaits, hgrown⟩

theorem toNat_nextInterval (h : p.sqNum ≠ 0) :
    p.nextInterval.toNat = min (2 * p.interval.toNat) p.config.most.toNat := by
  have hlt := p.config.most.toNat_lt
  rw [nextInterval, if_neg h, UInt64.toNat_min, Millis.toNat_double]
  omega

/-- **One frame.** -/
theorem paced_sent (h : Paced hurried n p) (now : Millis) : Paced hurried (n + 1) (p.sent now) := by
  have hone := p.config.one_le_least
  have hle := p.config.least_le_most
  have hcounted : (p.sent now).sqNum.toNat = (n + 1) % 2 ^ 32 := by
    have hsum : (p.sent now).sqNum.toNat = (p.sqNum.toNat + 1) % 2 ^ 32 := UInt32.toNat_add _ 1
    rw [hsum, h.counted, Nat.mod_add_mod]
  by_cases hround : 2 ^ 32 ∣ n
  · -- the frame counts as the first one
    have hleast : (p.sent now).interval = p.config.least := if_pos (h.sqNum_eq_zero_iff.2 hround)
    have hleast_le := Nat.le_of_eq (congrArg UInt64.toNat hleast.symm)
    refine ⟨hcounted, hleast_le, ?_, nofun, nofun, fun _ hnot => absurd ?_ hnot⟩
    · rw [hleast]
      exact hle
    · omega
  · have hnext : (p.sent now).interval.toNat = min (2 * p.interval.toNat) p.config.most.toNat :=
      toNat_nextInterval (mt h.sqNum_eq_zero_iff.1 hround)
    have hgrows := h.least_le
    have hconfig : (p.sent now).config = p.config := rfl
    refine ⟨hcounted, ?_, ?_, nofun, nofun, fun _ _ => ?_⟩
    all_goals
      rw [hnext, hconfig]
      omega

/-- **The law of intervals, where it holds.** After the first frame since a change the interval is the shortest one,
and after any other frame it is twice the interval before, as far as the longest one allows. -/
theorem Paced.law_iff [Decidable hurried] (h : Paced hurried n p) (now : Millis) :
    ((p.sent now).interval =
        (if n = 0 ∧ hurried then p.config.least else min (Millis.double p.interval) p.config.most) ↔
      (n = 0 ∧ hurried) ∨ ¬ 2 ^ 32 ∣ n ∨ p.config.least = p.config.most) ∧
    (p.interval ≤ (p.sent now).interval ↔
      (n = 0 ∧ hurried) ∨ ¬ 2 ^ 32 ∣ n ∨ p.config.least = p.config.most) := by
  have hone := p.config.one_le_least
  have hle := p.config.least_le_most
  have hleast := h.least_le
  have hmost := h.le_most
  by_cases hround : 2 ^ 32 ∣ n
  swap
  · -- the sequence number is not 0, and the law is what the publisher does
    have hsq : p.sqNum ≠ 0 := mt h.sqNum_eq_zero_iff.1 hround
    have hfirst : ¬ (n = 0 ∧ hurried) := fun hn => hround (hn.1 ▸ Nat.dvd_zero _)
    have hnext : (p.sent now).interval = min (Millis.double p.interval) p.config.most := if_neg hsq
    have hgrows : p.interval ≤ (p.sent now).interval := by
      have hnat : (p.sent now).interval.toNat = _ := toNat_nextInterval hsq
      rw [UInt64.le_iff_toNat_le, hnat]
      omega
    rw [if_neg hfirst]
    exact ⟨iff_of_true hnext (.inr (.inl hround)), iff_of_true hgrows (.inr (.inl hround))⟩
  have hnext : (p.sent now).interval = p.config.least := if_pos (h.sqNum_eq_zero_iff.2 hround)
  by_cases hfirst : n = 0 ∧ hurried
  · have hkept : p.interval ≤ (p.sent now).interval := by
      rw [hnext, h.hurries hfirst.1 hfirst.2]
      exact UInt64.le_refl _
    rw [if_pos hfirst]
    exact ⟨iff_of_true hnext (.inl hfirst), iff_of_true hkept (.inl hfirst)⟩
  · -- the interval has grown before, so the shortest one is lawful only if there is no longer one
    have hgrown : p.config.least.toNat < p.interval.toNat ∨ p.config.least.toNat = p.config.most.toNat := by
      by_cases hn : n = 0
      · -- a new publisher starts from the longest interval
        rw [h.waits hn fun hh => hfirst ⟨hn, hh⟩]
        omega
      · exact h.grown hn (by omega)
    have hdouble := Millis.toNat_double p.interval
    have hlt := p.config.most.toNat_lt
    simp only [hfirst, hround, hnext, if_false, not_true_eq_false, false_or, ← UInt64.toNat_inj,
      UInt64.le_iff_toNat_le, UInt64.toNat_min, hdouble]
    omega

end Publisher
end Goose

namespace Substation

open Goose

variable {past between : List Event} {d e : Event} {ref : String} {p : Publisher}

/-- The publisher of a path sends a frame in an event. -/
def Event.sends (e : Event) (ref : String) : Bool := e.frames.any fun f => f.ref == ref

theorem Event.sends_iff : e.sends ref = true ↔ ∃ f ∈ e.frames, f.ref = ref := by
  simp [sends]

/-- **Where the count of frames starts**: with a burst, which makes the publisher hurry, or with its registration. -/
theorem paced_start (hd : 0 < d.bursts ref ∨ d.Registers ref) (hp : d.after.publishers.get? ref = some p) :
    Publisher.Paced (0 < d.bursts ref) 0 p := by
  by_cases hreg : d.Registers ref
  · obtain ⟨config, dataset, ha⟩ := hreg
    obtain ⟨s, now, action⟩ := d
    obtain rfl : action = .addPublisher ref config dataset := ha
    obtain rfl := Option.some.inj ((SortedMap.get?_insert_self _ _ _).symm.trans hp)
    have hbursts : ¬ 0 < Event.bursts ⟨s, now, .addPublisher ref config dataset⟩ ref := Nat.lt_irrefl 0
    exact ⟨rfl, config.least_le_most, Nat.le_refl _, fun _ hh => absurd hh hbursts, fun _ _ => rfl, nofun⟩
  · have hbursts := hd.resolve_right hreg
    obtain ⟨q, -, htouched⟩ := publisher_origin d hp hreg
    cases htouched with
    | silent hadv =>
      have hinterval := hadv.hastened hbursts
      have hcounted : p.sqNum.toNat = 0 % 2 ^ 32 := congrArg UInt32.toNat (hadv.restarted hbursts)
      refine ⟨hcounted, Nat.le_of_eq (congrArg UInt64.toNat hinterval.symm), ?_, fun _ _ => hinterval,
        fun _ hh => absurd hbursts hh, nofun⟩
      rw [hinterval]
      exact p.config.least_le_most
    | sent _ _ _ hn => omega

/-- **A publisher between bursts**: its pace goes by the frames it has sent. -/
theorem paced_run (h : History (between ++ d :: past)) (hd : 0 < d.bursts ref ∨ d.Registers ref)
    (hquiet : ∀ x ∈ between, x.bursts ref = 0 ∧ ¬ x.Registers ref)
    (hp : (present (between ++ d :: past)).publishers.get? ref = some p) :
    Publisher.Paced (0 < d.bursts ref) (between.countP (·.sends ref)) p := by
  induction between generalizing p with
  | nil => exact paced_start hd hp
  | cons x between ih =>
    obtain ⟨⟨hbursts, hreg⟩, hquiet⟩ := List.forall_mem_cons.1 hquiet
    by_cases hsends : x.sends ref = true
    · obtain ⟨f, hf, rfl⟩ := Event.sends_iff.1 hsends
      obtain ⟨q, hq, -, hafter⟩ := sender h hf
      obtain rfl : q.sent x.time = p := Option.some.inj (hafter.symm.trans hp)
      rw [List.countP_cons, if_pos hsends]
      exact Publisher.paced_sent (ih h.tail hquiet hq) x.time
    · obtain ⟨q, hq, htouched⟩ := publisher_origin x hp hreg
      have hbefore := hq
      rw [h.before_eq] at hq
      rw [List.countP_cons, if_neg hsends]
      rw [hbursts] at htouched
      cases htouched with
      | silent hadv => exact (ih h.tail hquiet hq).advanced hadv
      | sent ha hdue _ _ =>
        -- the frame that is due would be sent
        exact absurd (Event.sends_iff.2 ⟨_, frame_mem_frames ha hbefore hdue, ref_of_get? h.tail hq⟩) hsends

/-- **The intervals of a publisher, and when they are lawful.** Let `d` be a burst of a publisher, or its
registration, and let the publisher not burst and not be registered again until it sends a frame, the one after `n`
others since `d`. The law asks for the shortest interval after the first frame since a burst, and after any other frame
for twice the interval before, up to the longest one. The publisher keeps to it, and its intervals do not decrease, if
the frame is the first one since a burst or if `2 ^ 32` does not divide `n`. In all other cases, which are the first
frame of a new publisher and every `2 ^ 32`-th frame after the first one, it breaks both, unless the shortest and the
longest interval are the same. -/
theorem interval_law_iff {f : Frame} (h : History (e :: between ++ d :: past)) (hf : f ∈ e.frames)
    (hd : 0 < d.bursts f.ref ∨ d.Registers f.ref)
    (hquiet : ∀ x ∈ between, x.bursts f.ref = 0 ∧ ¬ x.Registers f.ref) :
    ∃ p p', e.before.publishers.get? f.ref = some p ∧ e.after.publishers.get? f.ref = some p' ∧
      p'.config = p.config ∧
      let n := between.countP (·.sends f.ref)
      let first := n = 0 ∧ 0 < d.bursts f.ref
      (p'.interval = (if first then p.config.least else min (Millis.double p.interval) p.config.most) ↔
        first ∨ ¬ 2 ^ 32 ∣ n ∨ p.config.least = p.config.most) ∧
      (p.interval ≤ p'.interval ↔ first ∨ ¬ 2 ^ 32 ∣ n ∨ p.config.least = p.config.most) := by
  obtain ⟨p, hp, -, hafter⟩ := sender h hf
  refine ⟨p, p.sent e.time, h.before_eq ▸ hp, hafter, rfl, ?_⟩
  exact (paced_run h.tail hd hquiet hp).law_iff e.time

/-- The second frame after a change doubles the interval. -/
theorem second_interval :
    let past := historyOf [(0, .addPublisher "LD0/LLN0.gcb01" ⟨1, 1, 10, 1000, "DS"⟩ ["LD0/XCBR1.Pos.stVal"])]
    let d : Event := ⟨present past, 50, .write "LD0/XCBR1.Pos.stVal" (.int 2)⟩
    let x : Event := ⟨present (d :: past), 50, .transmit⟩
    let e : Event := ⟨present (x :: d :: past), 60, .transmit⟩
    let f : Frame := ⟨"LD0/LLN0.gcb01", 1, 2, 1, "DS", 1, 20, 60, [⟨"LD0/XCBR1.Pos.stVal", .int 2⟩]⟩
    History (e :: [x] ++ d :: past) ∧ f ∈ e.frames ∧ 0 < d.bursts f.ref ∧
      (∀ y ∈ [x], y.bursts f.ref = 0 ∧ ¬ y.Registers f.ref) ∧
      ∃ p p', e.before.publishers.get? f.ref = some p ∧ e.after.publishers.get? f.ref = some p' ∧
        p.interval = 10 ∧ p'.interval = min (Millis.double p.interval) p.config.most ∧
        p.interval ≤ p'.interval := by
  intro past d x e f
  have h : History (e :: [x] ++ d :: past) := (((history_historyOf _).next _ _).next _ _).next _ _
  have hf : f ∈ e.frames := List.mem_singleton_self f
  have hd : 0 < d.bursts f.ref := by decide
  have hquiet : ∀ y ∈ [x], y.bursts f.ref = 0 ∧ ¬ y.Registers f.ref := by
    rintro y hy
    obtain rfl := List.mem_singleton.1 hy
    exact ⟨rfl, fun ⟨_, _, ha⟩ => nomatch ha⟩
  obtain ⟨p, p', hp, hp', -, hlaw, hgrows⟩ := interval_law_iff h hf (.inl hd) hquiet
  have hn : [x].countP (·.sends f.ref) = 1 := rfl
  -- One frame has been sent since the change, so this is not the first one.
  have hnotFirst : ¬ ([x].countP (·.sends f.ref) = 0 ∧ 0 < d.bursts f.ref) := by
    rintro ⟨hzero, -⟩
    rw [hn] at hzero
    cases hzero
  have hround : ¬ 2 ^ 32 ∣ [x].countP (·.sends f.ref) := by rw [hn]; decide
  have hinterval : (e.before.publishers.get? f.ref).map Publisher.interval = some 10 := by decide
  rw [hp, Option.map_some, Option.some.injEq] at hinterval
  rw [if_neg hnotFirst] at hlaw
  exact ⟨h, hf, hd, hquiet, p, p', hp, hp', hinterval, hlaw.2 (.inr (.inl hround)), hgrows.2 (.inr (.inl hround))⟩

/-- A second after second without a change: the publisher of a breaker is registered, the breaker moves, and frames
are sent whenever they are due. -/
def idle : ℕ → List (Millis × Action)
  | 0 => [(0, .write "LD0/XCBR1.Pos.stVal" (.int 2)),
      (0, .addPublisher "LD0/LLN0.gcb01" ⟨1, 1, 10, 1000, "DS"⟩ ["LD0/XCBR1.Pos.stVal"])]
  | n + 1 => (UInt64.ofNat (1000 * (n + 1)), .transmit) :: idle n

/-- The publisher after `n` seconds, once it has slowed down. -/
def slow (n : ℕ) : Publisher :=
  ⟨"LD0/LLN0.gcb01", ⟨1, 1, 10, 1000, "DS"⟩, [⟨"LD0/XCBR1.Pos.stVal", .int 2⟩], true, 2, UInt32.ofNat n,
    UInt64.ofNat (1000 * (n + 1)), 1000, false⟩

theorem due_slow (n : ℕ) : (slow n).due (UInt64.ofNat (1000 * (n + 1))) = true := by
  simp [slow, Publisher.due]

/-- Up to the round of the sequence numbers, a slow publisher goes on as it is. -/
theorem sent_slow {n : ℕ} (hn : 0 < n) (hround : n < 2 ^ 32) :
    (slow n).sent (UInt64.ofNat (1000 * (n + 1))) = slow (n + 1) := by
  -- within the round the number of frames is the sequence number, so the next frame is not taken for the first one
  have hsq : (slow n).sqNum ≠ 0 := by
    intro h
    have hnat := UInt32.toNat_inj.2 h
    simp only [slow, UInt32.toNat_ofNat', UInt32.toNat_zero] at hnat
    omega
  have hlong : min (Millis.double 1000) (Config.most ⟨1, 1, 10, 1000, "DS"⟩) = 1000 := by decide
  have hnext : (slow n).nextInterval = 1000 := (if_neg hsq).trans hlong
  have hadd : UInt64.ofNat (1000 * (n + 1)) + 1000 = UInt64.ofNat (1000 * (n + 1 + 1)) := by
    rw [Nat.mul_add 1000 (n + 1), UInt64.ofNat_add]
    rfl
  have hplus : Millis.plus (UInt64.ofNat (1000 * (n + 1))) 1000 = UInt64.ofNat (1000 * (n + 1 + 1)) := by
    have hfits (k : ℕ) (hk : k ≤ n + 2) : (UInt64.ofNat (1000 * k)).toNat = 1000 * k := by
      rw [UInt64.toNat_ofNat']
      exact Nat.mod_eq_of_lt (by omega)
    refine (if_neg ?_).trans hadd
    rw [hadd, UInt64.lt_iff_toNat_lt, hfits _ (by omega), hfits _ (by omega)]
    omega
  have hcount : (slow n).sqNum + 1 = UInt32.ofNat (n + 1) := by
    rw [UInt32.ofNat_add]
    rfl
  have hsteady : decide ((1000 : Millis) < Config.most ⟨1, 1, 10, 1000, "DS"⟩) = false := by decide
  rw [Publisher.sent, hnext, hplus, hcount]
  exact congrArg (Publisher.mk _ _ _ true 2 _ _ 1000) hsteady

/-- It has slowed down after 8 seconds, and nothing changes before the sequence numbers have gone around. -/
theorem publisher_idle {n : ℕ} (hslow : 8 ≤ n) (hround : n ≤ 2 ^ 32) :
    (present (historyOf (idle n))).publishers.get? "LD0/LLN0.gcb01" = some (slow n) := by
  obtain ⟨n, rfl⟩ := Nat.exists_eq_add_of_le' hslow
  clear hslow
  induction n with
  | zero => decide
  | succ n ih =>
    have hsent := get?_transmit_of_due (ih (by omega)) (due_slow (n + 8))
    rw [sent_slow (by omega) (by omega)] at hsent
    exact hsent

theorem sends_idle {n : ℕ} (hslow : 8 ≤ n) (hround : n ≤ 2 ^ 32) :
    Event.sends ⟨present (historyOf (idle n)), UInt64.ofNat (1000 * (n + 1)), .transmit⟩ "LD0/LLN0.gcb01" = true :=
  Event.sends_iff.2 ⟨_, frame_mem_frames rfl (publisher_idle hslow hround) (due_slow n), rfl⟩

/-- Each second brings a frame. -/
theorem countP_idle {n : ℕ} (hslow : 8 ≤ n) (hround : n ≤ 2 ^ 32) :
    (historyOf (idle n)).countP (·.sends "LD0/LLN0.gcb01") = n := by
  obtain ⟨n, rfl⟩ := Nat.exists_eq_add_of_le' hslow
  clear hslow
  induction n with
  | zero => decide
  | succ n ih =>
    have hsends := sends_idle (Nat.le_add_left 8 n) (by omega)
    have hcount := ih (by omega)
    show (⟨present (historyOf (idle (n + 8))), _, .transmit⟩ :: historyOf (idle (n + 8)) : List Event).countP _ = _
    rw [List.countP_cons, if_pos hsends, hcount]

/-- When the sequence numbers have gone around, the next frame counts as the first one: it cuts the interval from the
longest one to the shortest one. -/
theorem idle_falls_back {n : ℕ} (hslow : 8 ≤ n) (hn : n ≤ 2 ^ 32) (hround : 2 ^ 32 ∣ n) :
    let past := historyOf (idle n)
    let e : Event := ⟨present past, UInt64.ofNat (1000 * (n + 1)), .transmit⟩
    past.countP (·.sends "LD0/LLN0.gcb01") = n ∧ e.sends "LD0/LLN0.gcb01" = true ∧
      ∃ p p', e.before.publishers.get? "LD0/LLN0.gcb01" = some p ∧
        e.after.publishers.get? "LD0/LLN0.gcb01" = some p' ∧
        p.stNum = 2 ∧ p'.stNum = 2 ∧ p.interval = 1000 ∧ p'.interval = 10 := by
  intro past e
  have hp := publisher_idle hslow hn
  have hafter : e.after.publishers.get? "LD0/LLN0.gcb01" = some ((slow n).sent e.time) :=
    get?_transmit_of_due hp (due_slow n)
  have hsq : (slow n).sqNum = 0 := by
    rw [← UInt32.toNat_inj, slow, UInt32.toNat_ofNat', UInt32.toNat_zero]
    omega
  have hshort : Config.least ⟨1, 1, 10, 1000, "DS"⟩ = 10 := by decide
  exact ⟨countP_idle hslow hn, sends_idle hslow hn, _, _, hp, hafter, rfl, rfl, rfl, (if_pos hsq).trans hshort⟩

/-- **The interval falls back.** The first frame of a new publisher cuts its interval from 1000 to 10, though there
has been no change; and so does the frame after `2 ^ 32` others since the last change, under the same status
number. The law asks for 1000 both times. -/
theorem interval_falls_back :
    (let past := historyOf
        [(0, .addPublisher "LD0/LLN0.gcb01" ⟨1, 1, 10, 1000, "DS"⟩ ["LD0/XCBR1.Pos.stVal"])]
      let e : Event := ⟨present past, 100, .transmit⟩
      e.sends "LD0/LLN0.gcb01" = true ∧
        ∃ p p', e.before.publishers.get? "LD0/LLN0.gcb01" = some p ∧
          e.after.publishers.get? "LD0/LLN0.gcb01" = some p' ∧
          p.stNum = 1 ∧ p'.stNum = 1 ∧ p.interval = 1000 ∧ p'.interval = 10) ∧
    (let past := historyOf (idle (2 ^ 32))
      let e : Event := ⟨present past, UInt64.ofNat (1000 * (2 ^ 32 + 1)), .transmit⟩
      past.countP (·.sends "LD0/LLN0.gcb01") = 2 ^ 32 ∧ e.sends "LD0/LLN0.gcb01" = true ∧
        ∃ p p', e.before.publishers.get? "LD0/LLN0.gcb01" = some p ∧
          e.after.publishers.get? "LD0/LLN0.gcb01" = some p' ∧
          p.stNum = 2 ∧ p'.stNum = 2 ∧ p.interval = 1000 ∧ p'.interval = 10) ∧
    min (Millis.double 1000) (Config.most ⟨1, 1, 10, 1000, "DS"⟩) = 1000 := by
  refine ⟨⟨rfl, _, _, rfl, rfl, rfl, rfl, rfl, by decide⟩, ?_, by decide⟩
  exact idle_falls_back (by decide) (Nat.le_refl _) (Nat.dvd_refl _)

end Substation
end Switchyard
