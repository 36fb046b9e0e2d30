import Itsanas.Crash
import Itsanas.Contents
import Itsanas.History
import Itsanas.Converge
import Itsanas.Release
import Itsanas.Depot
import Itsanas.Owners
import Itsanas.Credit
import Itsanas.Promise
import Itsanas.PledgeThreads
import Itsanas.Placement
import Itsanas.Chains
import Itsanas.Totals
import Itsanas.Relay
import Itsanas.Kept
import Itsanas.Conflict
import Itsanas.Cutters
import Itsanas.Trade
import Itsanas.Drive
import Itsanas.Wave
import Itsanas.Gapless
import Itsanas.Budget
import Itsanas.Ring
import Itsanas.Miss
import Itsanas.Lib.Ranking
import Itsanas.NodeSet
import Itsanas.Repair
import Itsanas.Lib.Text
import Itsanas.Price
import Itsanas.Keeping
import Itsanas.Want
import Itsanas.Framing
import Itsanas.Lib.Ration
import Itsanas.Escrow
import Itsanas.Pledges
import Itsanas.Lib.Backoff
import Itsanas.Contact
import Itsanas.Lib.Capped
import Itsanas.AddressBook
import Itsanas.Lib.Carousel
import Itsanas.Census
import Itsanas.Lib.Resume
import Itsanas.DiskCheck
import Itsanas.Seal
import Itsanas.Sanctions
import Itsanas.Coverage
