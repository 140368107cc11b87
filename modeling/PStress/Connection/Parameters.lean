import PStress.Connection.Conninfo

/-! The connection string of the PostgreSQL driver, and what is read of it. -/
namespace PStress.Connection
open Text

/-- `sql_variant::ServerParams`, without the field the connection string has no use for. -/
structure ServerParams where
  database : String
  address : String
  socket : String
  username : String
  password : String
  port : UInt16
  deriving DecidableEq, Repr

def buildConnectionString (params : ServerParams) : String :=
  let ret := "dbname=" ++ params.database
  let ret := if params.username.isEmpty then ret else ret ++ " user=" ++ params.username
  let ret := if params.password.isEmpty then ret else ret ++ " password=" ++ params.password
  let ret :=
    if !params.address.isEmpty then ret ++ " host=" ++ params.address
    else if !params.socket.isEmpty then ret ++ " host=" ++ params.socket
    else ret
  if params.port != 0 && params.port != 5432 then ret ++ " port=" ++ toString params.port.toNat
  else ret

def nonEmpty (value : String) : Option String := if value.isEmpty then none else some value

namespace ServerParams
variable (params : ServerParams)

def host : String := if params.address.isEmpty then params.socket else params.address

def otherPort : Option String :=
  if params.port = 0 ∨ params.port = 5432 then none else some (toString params.port.toNat)

/-- What the parameters say of a keyword. -/
def meaning (keyword : String) : Option String :=
  if keyword = "dbname" then some params.database
  else if keyword = "user" then nonEmpty params.username
  else if keyword = "password" then nonEmpty params.password
  else if keyword = "host" then nonEmpty params.host
  else if keyword = "port" then params.otherPort
  else none

def fields : List Pair :=
  (("dbname", params.database) :: (nonEmpty params.username).toList.map ("user", ·) ++
    (nonEmpty params.password).toList.map ("password", ·) ++
    (nonEmpty params.host).toList.map ("host", ·) ++ params.otherPort.toList.map ("port", ·)).map
  fun p => (p.1.toList, p.2.toList)

end ServerParams

variable {params : ServerParams}

/-- One more pair at the end of a connection string, if there is a value. -/
def addField (ret label : String) : Option String → String
  | some v => ret ++ label ++ v
  | none => ret

private theorem addField_nonEmpty (ret label v : String) : addField ret label (nonEmpty v) =
    if v.isEmpty then ret else ret ++ label ++ v := by
  rw [nonEmpty]
  split <;> rfl

private theorem buildConnectionString_eq : buildConnectionString params =
    addField (addField (addField (addField ("dbname=" ++ params.database) " user="
      (nonEmpty params.username)) " password=" (nonEmpty params.password)) " host="
      (nonEmpty params.host)) " port=" params.otherPort := by
  have hport (ret : String) : addField ret " port=" params.otherPort =
      if params.port != 0 && params.port != 5432 then
        ret ++ " port=" ++ toString params.port.toNat
      else ret := by
    by_cases h0 : params.port = 0
    · simp [ServerParams.otherPort, addField, h0]
    · by_cases h1 : params.port = 5432
      · simp [ServerParams.otherPort, addField, h1]
      · simp [ServerParams.otherPort, addField, h0, h1]
  have hhost (ret : String) : addField ret " host=" (nonEmpty params.host) =
      if !params.address.isEmpty then ret ++ " host=" ++ params.address
      else if !params.socket.isEmpty then ret ++ " host=" ++ params.socket
      else ret := by
    rw [addField_nonEmpty, ServerParams.host]
    cases ha : params.address.isEmpty with
    | false => simp [ha]
    | true => cases hs : params.socket.isEmpty <;> simp [hs]
  rw [hport, hhost, addField_nonEmpty, addField_nonEmpty]
  rfl

private theorem toList_addField {ret label keyword : String} {ps : List Pair}
    (hl : label.toList = ' ' :: (keyword.toList ++ ['='])) (value : Option String)
    (h : ret.toList = render ps) (hne : ps ≠ []) : (addField ret label value).toList =
      render (ps ++ (value.toList.map (keyword, ·)).map fun p => (p.1.toList, p.2.toList)) := by
  cases value with
  | none => simpa [addField] using h
  | some v =>
    simp only [addField, Option.toList_some, List.map_cons, List.map_nil, String.toList_append, hl]
    rw [render_concat hne, h]
    simp [renderPair]

/-- The connection string is its pairs, with single blanks between them. -/
private theorem toList_buildConnectionString :
    (buildConnectionString params).toList = render params.fields := by
  have hne (p : Pair) (ps : List Pair) : p :: ps ≠ [] := List.cons_ne_nil p ps
  have h₀ : ("dbname=" ++ params.database).toList =
      render [("dbname".toList, params.database.toList)] := by
    simp [render, renderPair]
  have huser : " user=".toList = ' ' :: ("user".toList ++ ['=']) := by decide
  have hpassword : " password=".toList = ' ' :: ("password".toList ++ ['=']) := by decide
  have hhost : " host=".toList = ' ' :: ("host".toList ++ ['=']) := by decide
  have hport : " port=".toList = ' ' :: ("port".toList ++ ['=']) := by decide
  have h₁ := toList_addField huser (nonEmpty params.username) h₀ (hne _ _)
  have h₂ := toList_addField hpassword (nonEmpty params.password) h₁ (hne _ _)
  have h₃ := toList_addField hhost (nonEmpty params.host) h₂ (hne _ _)
  have h₄ := toList_addField hport params.otherPort h₃ (hne _ _)
  rw [buildConnectionString_eq, h₄]
  simp [ServerParams.fields]

private theorem mem_fields {keyword : String} {v : List Char} :
    (keyword.toList, v) ∈ params.fields ↔
    ∃ value, params.meaning keyword = some value ∧ value.toList = v := by
  simp only [ServerParams.fields, List.mem_map, List.mem_append, List.mem_cons,
    Option.mem_toList, Prod.mk.injEq, String.toList_inj]
  constructor
  · rintro ⟨⟨k, value⟩, hp, rfl, rfl⟩
    refine ⟨value, ?_, rfl⟩
    rcases hp with (((hp | ⟨a, ha, hp⟩) | ⟨a, ha, hp⟩) | ⟨a, ha, hp⟩) | ⟨a, ha, hp⟩ <;> cases hp <;>
      simp [ServerParams.meaning, *]
  · rintro ⟨value, hm, rfl⟩
    refine ⟨(keyword, value), ?_, rfl, rfl⟩
    simp only [ServerParams.meaning] at hm
    (repeat' split at hm) <;> simp_all

private theorem setting_fields (hd : (params.fields.map Prod.fst).Nodup) (keyword : String) :
    setting params.fields keyword.toList = (params.meaning keyword).map String.toList := by
  apply Option.ext
  intro v
  rw [setting_eq_some_iff hd, mem_fields, Option.map_eq_some_iff]

private theorem fields_keywords : (params.fields.map Prod.fst).Sublist
    (["dbname".toList, "user".toList] ++ ["password".toList] ++ ["host".toList] ++
      ["port".toList]) := by
  have one (keyword : String) (value : Option String) : (((value.toList.map (keyword, ·)).map
      fun p => (p.1.toList, p.2.toList)).map Prod.fst).Sublist [keyword.toList] := by
    cases value <;> simp
  simp only [ServerParams.fields, List.map_append, List.map_cons]
  exact ((((one _ _).cons_cons _).append (one _ _)).append (one _ _)).append (one _ _)

private theorem fields_distinct : (params.fields.map Prod.fst).Nodup :=
  fields_keywords.nodup (by decide)

private theorem fields_keyword : ∀ p ∈ params.fields, Keyword p.1 := by
  intro p hp
  have hk := fields_keywords.subset (List.mem_map_of_mem hp)
  have hall : ∀ k ∈ ["dbname".toList, "user".toList] ++ ["password".toList] ++ ["host".toList] ++
      ["port".toList], k ≠ [] ∧ k.all keywordChar := by decide
  exact keyword_of_all (hall p.1 hk)

private theorem plain_of_isDigit {c : Char} (h : c.isDigit) :
    c ≠ quote ∧ c ≠ escape ∧ blank c = false := by
  obtain ⟨hlo, hhi⟩ := Char.isDigit_iff_toNat.mp h
  have hne {d : Char} (hd : d.toNat < 48 ∨ 57 < d.toNat) : c ≠ d := by
    rintro rfl
    simp only [Char.reduceToNat] at hlo hhi
    omega
  refine ⟨hne (by decide), hne (by decide), ?_⟩
  have hsp : c ≠ ' ' := hne (by decide)
  have hcr : ¬c ≤ '\r' := by
    intro hle
    have : c.toNat ≤ 13 := hle
    simp only [Char.reduceToNat] at hlo
    omega
  simp [blank, hsp, hcr]

private theorem plain_toString (n : Nat) : Plain (toString n).toList := by
  refine ⟨toString_ne_nil n, ?_, fun c hc => (plain_of_isDigit (isDigit_of_mem_toString hc)).2⟩
  intro hq
  exact (plain_of_isDigit (isDigit_of_mem_toString (List.mem_of_head? hq))).1 rfl

private theorem nonEmpty_eq_some {s v : String} : nonEmpty s = some v ↔ s ≠ "" ∧ s = v := by
  simp only [nonEmpty, String.isEmpty_iff]
  split <;> simp [*]

private theorem fields_plain_iff : (∀ p ∈ params.fields, Plain p.2) ↔ Plain params.database.toList ∧
    ∀ value ∈ [params.username, params.password, params.host],
      value ≠ "" → Plain value.toList := by
  have hport {v : String} (hv : params.otherPort = some v) : Plain v.toList := by
    simp only [ServerParams.otherPort] at hv
    split at hv <;> cases hv
    exact plain_toString _
  simp only [ServerParams.fields, List.forall_mem_map, List.forall_mem_append,
    List.forall_mem_cons, Option.mem_toList, nonEmpty_eq_some]
  constructor
  · rintro ⟨⟨⟨⟨hd, hu⟩, hp⟩, hh⟩, _⟩
    exact ⟨hd, fun h => hu _ ⟨h, rfl⟩, fun h => hp _ ⟨h, rfl⟩, fun h => hh _ ⟨h, rfl⟩,
      fun _ h => absurd h List.not_mem_nil⟩
  · rintro ⟨hd, hu, hp, hh, _⟩
    refine ⟨⟨⟨⟨hd, ?_⟩, ?_⟩, ?_⟩, fun _ => hport⟩ <;> rintro _ ⟨h, rfl⟩
    · exact hu h
    · exact hp h
    · exact hh h

/-- Reading the connection string gives back what the parameters say exactly if the database, and
whatever else of user, password and host is not empty, needs no quotes. -/
theorem connection_string_read_iff (params : ServerParams) :
    (∃ qs, conninfo (buildConnectionString params).toList = some qs ∧
      ∀ keyword : String,
        setting qs keyword.toList = (params.meaning keyword).map String.toList) ↔
    Plain params.database.toList ∧
      ∀ value ∈ [params.username, params.password, params.host],
        value ≠ "" → Plain value.toList := by
  rw [← fields_plain_iff, ← read_back_iff fields_keyword fields_distinct,
    toList_buildConnectionString]
  refine exists_congr fun qs => and_congr_right fun _ => ?_
  simp only [← setting_fields fields_distinct]
  constructor
  · intro h
    funext k
    have := h (String.ofList k)
    rwa [String.toList_ofList] at this
  · intro h keyword
    rw [h]

/-- Parameters as `setup_node_pg` makes them, with a password that ends in a setting. -/
def injecting : ServerParams := ⟨"pstress", "localhost", "", "postgres", "secret port=1", 5432⟩

/-- The password sets the port, and is read as another one. -/
theorem port_injected : (conninfo (buildConnectionString injecting).toList).map (fun qs =>
      (setting qs "password".toList, setting qs "port".toList)) =
      some (some "secret".toList, some "1".toList) ∧
    injecting.meaning "password" = some "secret port=1" ∧ injecting.meaning "port" = none := by
  decide +kernel

end PStress.Connection
