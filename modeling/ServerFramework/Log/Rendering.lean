import ServerFramework.Log.Format

/-!
# What a pattern promises

A pattern names the fields of an event, and for `%d` a date format.  Between the promise and
`LogFormatter::format` stand a buffer of 64 bytes, which `strftime` leaves as it is when the date does
not fit, and the 32 bits of `LogEvent::getTime`.
-/

namespace Server.Log

/-- The process without the contents of uninitialised buffers, and with the `time_t` of `localtime_r`. -/
structure Platform where
  localtime : BitVec 64 → Tm
  conversion : Tm → List Char → List Char

/-- A `time_t` is made of what `getTime` returns. -/
def Platform.environment (p : Platform) (garbage : List Char) : Environment :=
  ⟨fun t ↦ p.localtime (t.setWidth 64), p.conversion, garbage⟩

/-- The complete expansion of a date format, as a C string, for a time. -/
def Platform.expansion (p : Platform) (format : List Char) (time : BitVec 64) : List Char :=
  (p.environment []).expand (p.localtime time) ((dateFormat format).takeWhile (· != '\x00'))

/-- What a directive stands for. -/
def Platform.field (p : Platform) (level : Level) (event : LogEvent) (arg : List Char) :
    ItemClass → List Char
  | .message => event.content.toList
  | .level => level.toString.toList
  | .elapse => (Nat.repr event.elapse.toNat).toList
  | .name => event.loggerName.toList
  | .threadId => (Nat.repr event.threadId.toNat).toList
  | .newLine => ['\n']
  | .dateTime => p.expansion arg event.time
  | .filename => event.file.toList
  | .line => (toString event.line.toInt).toList
  | .tab => ['\t']
  | .fiberId => (Nat.repr event.fiberId.toNat).toList
  | .threadName => event.threadName.toList

/-- What a token stands for. -/
def Platform.meant (p : Platform) (level : Level) (event : LogEvent) : Token → List Char
  | .literal text => text
  | .directive cls arg => p.field level event (arg.getD []) cls

/-- Whatever the buffers hold, every token contributes what it stands for, and nothing else is
written. -/
def Platform.Renders (p : Platform) (level : Level) (event : LogEvent) (pattern : String)
    (ts : List Token) : Prop :=
  ∀ garbage,
    ((LogFormatter.init pattern).items.map (·.format (p.environment garbage) level event) =
        ts.map (p.meant level event)) ∧
      (LogFormatter.init pattern).format (p.environment garbage) level event =
        ts.flatMap (p.meant level event)

/-- The date fits in the buffer, and the low half of the time gives the same one. -/
def Platform.DateFits (p : Platform) (event : LogEvent) (arg : List Char) : Prop :=
  (p.expansion arg event.time).length < 64 ∧
    p.expansion arg ((event.time.setWidth 32).setWidth 64) = p.expansion arg event.time

variable {p : Platform} {level : Level} {event : LogEvent} {ts : List Token} {pattern : String}

/-- No conversion reads an uninitialised buffer. -/
theorem expand_environment (garbage garbage' : List Char) (tm : Tm) (format : List Char) :
    (p.environment garbage).expand tm format = (p.environment garbage').expand tm format := by
  fun_induction Environment.expand (p.environment garbage) tm format with
  | case1 rest ih => rw [Environment.expand, ih]
  | case2 c rest ih => rw [Environment.expand, ih]; rfl
  | case3 c rest ih => rw [Environment.expand, ih]; rfl
  | case4 c rest h h₁ h₂ ih =>
      rw [Environment.expand, ih]
      · rfl
      all_goals assumption
  | case5 c rest h h₁ h₂ h₃ ih =>
      rw [Environment.expand, ih]
      all_goals assumption
  | case6 => rfl

/-- The time as `getTime` returns it, in a `time_t`. -/
def LogEvent.lowTime (event : LogEvent) : BitVec 64 := event.getTime.setWidth 64

theorem dateTime_environment (garbage format : List Char) :
    (p.environment garbage).dateTime format event =
      if (p.expansion format event.lowTime).length < 64 then p.expansion format event.lowTime
      else garbage := by
  unfold Environment.dateTime Environment.strftime
  dsimp only
  rw [expand_environment garbage []]
  show (if (p.expansion format event.lowTime).length < 64 then _ else none).getD garbage = _
  split
  · rfl
  · rfl

theorem dateTime_iff (format : List Char) :
    (∀ garbage, (p.environment garbage).dateTime format event = p.expansion format event.time) ↔
      p.DateFits event format := by
  constructor
  · intro h
    -- a buffer that does not hold the date by chance
    have hone := h ('x' :: p.expansion format event.time)
    rw [dateTime_environment] at hone
    split at hone
    · rename_i hfits
      refine ⟨?_, hone⟩
      rw [← hone]
      exact hfits
    · exact absurd hone (List.cons_ne_self _ _)
  · rintro ⟨hfits, hlow⟩ garbage
    rw [dateTime_environment]
    change p.expansion format event.lowTime = _ at hlow
    rw [hlow, if_pos hfits]

/-- Every field but the date is written as it is. -/
theorem format_field {cls : ItemClass} (hcls : cls ≠ .dateTime) (garbage arg : List Char) :
    (FormatItem.item cls arg).format (p.environment garbage) level event =
      p.field level event arg cls := by
  cases cls with
  | dateTime => exact absurd rfl hcls
  | _ => rfl

theorem token_iff (t : Token) :
    (∀ garbage, t.item.format (p.environment garbage) level event = p.meant level event t) ↔
      ∀ arg, t = .directive .dateTime arg → p.DateFits event (arg.getD []) := by
  cases t with
  | literal text => exact ⟨fun _ ↦ nofun, fun _ _ ↦ rfl⟩
  | directive cls arg =>
      -- only the date goes through a buffer
      by_cases hcls : cls = .dateTime
      · subst hcls
        constructor
        · rintro h arg' heq
          cases heq
          exact (dateTime_iff _).mp h
        · exact fun h ↦ (dateTime_iff _).mpr (h arg rfl)
      · constructor
        · rintro - arg' heq
          cases heq
          exact absurd rfl hcls
        · exact fun _ garbage ↦ format_field hcls garbage _

theorem renders_tokens (hitems : (LogFormatter.init pattern).items = ts.map Token.item) :
    p.Renders level event pattern ts ↔
      ∀ arg, .directive .dateTime arg ∈ ts → p.DateFits event (arg.getD []) := by
  have htokens : p.Renders level event pattern ts ↔
      ∀ t ∈ ts, ∀ garbage, t.item.format (p.environment garbage) level event =
        p.meant level event t := by
    unfold Platform.Renders LogFormatter.format
    rw [hitems]
    constructor
    · intro h t ht garbage
      have hmap := (h garbage).1
      rw [List.map_map, List.map_inj_left] at hmap
      exact hmap t ht
    · intro h garbage
      have hmap : (ts.map Token.item).map (·.format (p.environment garbage) level event) =
          ts.map (p.meant level event) := by
        rw [List.map_map, List.map_inj_left]
        exact fun t ht ↦ h t ht garbage
      refine ⟨hmap, ?_⟩
      rw [List.flatMap_def, hmap, List.flatMap_def]
  rw [htokens]
  constructor
  · intro h arg hmem
    exact (token_iff _).mp (h _ hmem) arg rfl
  · intro h t ht
    apply (token_iff t).mpr
    rintro arg rfl
    exact h arg ht

theorem percentsInBraces_of (h : ¬ ['%', '%'] <:+: pattern.toList) :
    PercentsInBraces pattern.toList := by
  intro a b heq
  exact absurd ⟨a, b, by rw [heq, List.append_assoc]; rfl⟩ h

/-- An accepted pattern without `%%` is spelled by tokens, and the text is what they stand for as
long as the dates fit. -/
theorem renders_iff (hpercent : ¬ ['%', '%'] <:+: pattern.toList)
    (hok : (LogFormatter.init pattern).isError = false) :
    (∃ ts, Spells ts pattern.toList ∧ Maximal ts) ∧
      ∀ ts, Spells ts pattern.toList → Maximal ts →
        (p.Renders level event pattern ts ↔
          ∀ arg, .directive .dateTime arg ∈ ts → p.DateFits event (arg.getD [])) :=
  ⟨spells_of_init (percentsInBraces_of hpercent) hok,
    fun _ hts hmax ↦ renders_tokens (init_spells hts hmax).2⟩

/-- UTC, at the first second and behind 32 bits of seconds. -/
def utc : Platform where
  localtime := fun t ↦ if t = 4294967296 then ⟨16, 28, 6, 7, 1, 206⟩ else ⟨0, 0, 0, 1, 0, 70⟩
  conversion := fun _ _ ↦ []

def dated (time : BitVec 64) : LogEvent := ⟨"main.cpp", 7, 0, 1, 0, time, "main", "started", "root"⟩

theorem spells_date : Spells [.directive .dateTime none, .directive .newLine none] "%d%n".toList :=
  .cons (t := .directive .dateTime none) (fun c hc ↦ by cases hc; decide)
    (.cons (t := .directive .newLine none) nofun .nil)

theorem maximal_date : Maximal [.directive .dateTime none, .directive .newLine none] := by
  unfold Maximal
  decide

theorem percent_date : ¬ ['%', '%'] <:+: "%d%n".toList := by
  rw [show "%d%n".toList = ['%', 'd', '%', 'n'] from rfl]
  decide

theorem renders_iff_epoch : utc.Renders .info (dated 0) "%d%n"
    [.directive .dateTime none, .directive .newLine none] := by
  apply ((renders_iff percent_date (init_spells spells_date maximal_date).1).2 _ spells_date
    maximal_date).mpr
  intro arg harg
  have hnone : arg = none := by simpa using harg
  subst hnone
  constructor
  all_goals decide +kernel

/-- A date format of 64 characters. -/
def longDate : String := String.ofList ('%' :: 'd' :: '{' :: (List.replicate 64 'x' ++ ['}']))

theorem spells_long : Spells [.directive .dateTime (some (List.replicate 64 'x'))] longDate.toList := by
  have hfits : (Token.directive .dateTime (some (List.replicate 64 'x'))).Fits [] := by
    intro hmem
    exact absurd (List.eq_of_mem_replicate hmem) (by decide)
  unfold longDate
  rw [String.toList_ofList]
  exact .cons hfits .nil

theorem maximal_long : Maximal [.directive .dateTime (some (List.replicate 64 'x'))] := by
  unfold Maximal
  decide

theorem percent_long : ¬ ['%', '%'] <:+: longDate.toList := by
  unfold longDate
  rw [String.toList_ofList]
  decide +kernel

/-- A time of more than 32 bits, and a date that does not fit. -/
theorem not_renders :
    (¬ ['%', '%'] <:+: "%d%n".toList ∧ (LogFormatter.init "%d%n").isError = false ∧
      Spells [.directive .dateTime none, .directive .newLine none] "%d%n".toList ∧
      ¬ utc.Renders .info (dated 4294967296) "%d%n"
        [.directive .dateTime none, .directive .newLine none]) ∧
      ¬ ['%', '%'] <:+: longDate.toList ∧ (LogFormatter.init longDate).isError = false ∧
        Spells [.directive .dateTime (some (List.replicate 64 'x'))] longDate.toList ∧
        ¬ utc.Renders .info (dated 0) longDate
          [.directive .dateTime (some (List.replicate 64 'x'))] := by
  have hdate := init_spells spells_date maximal_date
  have hlong := init_spells spells_long maximal_long
  refine ⟨⟨percent_date, hdate.1, spells_date, fun h ↦ ?_⟩, percent_long, hlong.1, spells_long,
    fun h ↦ ?_⟩
  · rw [renders_tokens hdate.2] at h
    exact absurd (h none List.mem_cons_self).2 (by decide +kernel)
  · rw [renders_tokens hlong.2] at h
    exact absurd (h _ List.mem_cons_self).1 (by decide +kernel)

end Server.Log
