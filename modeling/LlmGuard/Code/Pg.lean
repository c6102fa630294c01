import LlmGuard.Spec.Bytes

/-! # `utils/Pg.hpp`: connection strings -/

namespace LlmGuard.Pg

def quoteValue (v : Bytes) : Bytes :=
  ch '\'' :: v.flatMap (fun c => if c = ch '\\' || c = ch '\'' then [ch '\\', c] else [c]) ++ [ch '\'']

/-- `std::to_string` of an `int`. -/
def intString (n : Int) : Bytes := if n < 0 then ch '-' :: decimal n.natAbs else decimal n.natAbs

def makeConninfo (host : Bytes) (port : Int) (user dbname password : Bytes) : Bytes :=
  let dsn := ascii "host=" ++ quoteValue host ++ ascii " port=" ++ intString port ++ ascii " user=" ++ quoteValue user ++
    ascii " dbname=" ++ quoteValue dbname
  if password.isEmpty then dsn else dsn ++ (ascii " password=" ++ quoteValue password)

end LlmGuard.Pg
