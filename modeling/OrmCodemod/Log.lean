/-!
What a run has to tell its user, besides its result.
-/

namespace OrmCodemod

inductive Level where
  | debug
  | info
  | warning
  | error
  deriving DecidableEq, Repr

def Level.name : Level → String
  | .debug => "DEBUG"
  | .info => "INFO"
  | .warning => "WARNING"
  | .error => "ERROR"

/-- One message. -/
structure LogEntry where
  level : Level
  message : String
  deriving DecidableEq, Repr

end OrmCodemod
